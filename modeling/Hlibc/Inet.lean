import Hlibc.Ctype
import Hlibc.Errno
import Hlibc.String.Hex

/-!
# `inet.c`

Internet addresses and their texts.  The functions that write a text give all
the characters they write; the functions that read one get the object and the
offset a pointer stands for.
-/

set_option autoImplicit false

namespace Hlibc.Inet

/-! ## IPv4 -/

/-- The character `'0' + val`. -/
def digit (val : ℕ) : UInt8 := UInt8.ofNat ((chr '0').toNat + val)

/-- The digits that one pass of the loop of `ipv4_to_str` writes. -/
def ipv4ToStrPart (val : ℕ) : List UInt8 :=
  if val < 10 then [digit val]
  else if val < 100 then [digit (val / 10), digit (val % 10)]
  else [digit (val / 100), digit (val / 10 % 10), digit (val % 10)]

/-- `ipv4_to_str`: the dot behind the fourth number gives way to the terminator. -/
def ipv4ToStr (src : List UInt8) : Exec (List UInt8) := do
  let b0 ← readByte src 0
  let b1 ← readByte src 1
  let b2 ← readByte src 2
  let b3 ← readByte src 3
  .ok (ipv4ToStrPart b0.toNat ++ [chr '.'] ++ ipv4ToStrPart b1.toNat ++ [chr '.'] ++
    ipv4ToStrPart b2.toNat ++ [chr '.'] ++ ipv4ToStrPart b3.toNat ++ [0])

/-- `10 * val + c - '0'`. -/
def addDigit (val : ℕ) (c : UInt8) : ℕ := 10 * val + c.toNat - (chr '0').toNat

/-- The number that one pass of the loop of `ipv4_to_bin` reads, and the position
behind it; `none` is the return of `EINVAL`. -/
def ipv4ToBinPart (src : List UInt8) (pos : ℕ) : Exec (Option (ℕ × ℕ)) := do
  let c ← readByte src pos
  if isdigit c then
    if c = chr '0' then .ok (some (0, pos + 1)) else
    let val := addDigit 0 c
    let c ← readByte src (pos + 1)
    if isdigit c then
      let val := addDigit val c
      let c ← readByte src (pos + 2)
      if isdigit c then
        let val := addDigit val c
        if 255 < val then .ok none else .ok (some (val, pos + 3))
      else .ok (some (val, pos + 2))
    else .ok (some (val, pos + 1))
  else .ok none

/-- The variables of `ipv4_to_bin`. -/
structure Ipv4State where
  i : ℕ
  pos : ℕ
  dest : List UInt8

/-- One pass of the loop of `ipv4_to_bin`; the loop is left at the return. -/
def ipv4ToBinPass (src : List UInt8) (off : ℕ) (st : Ipv4State) :
    Exec (Pass Ipv4State (ℤ × List UInt8)) := do
  if st.i < 4 then
    match ← ipv4ToBinPart src st.pos with
    | none => .ok (.done (EINVAL, st.dest))
    | some (val, pos) =>
        if st.i < 3 then
          let c ← readByte src pos
          if c ≠ chr '.' then .ok (.done (EINVAL, st.dest)) else
          let dest ← writeByte st.dest (off + st.i) (UInt8.ofNat val)
          .ok (.next { i := st.i + 1, pos := pos + 1, dest := dest })
        else
          let dest ← writeByte st.dest (off + st.i) (UInt8.ofNat val)
          .ok (.next { i := st.i + 1, pos := pos, dest := dest })
  else
    let c ← readByte src st.pos
    .ok (.done (if c ≠ 0 then EINVAL else 0, st.dest))

/-- `ipv4_to_bin` of the text at `pos` of `src`, to offset `off` of `dest`. -/
def ipv4ToBin (src : List UInt8) (pos : ℕ) (dest : List UInt8) (off : ℕ) :
    Exec (ℤ × List UInt8) :=
  loop (ipv4ToBinPass src off) 5 { i := 0, pos := pos, dest := dest }

/-! ## IPv6 -/

/-- The digits of `ipv6_to_str_part`, with their terminator. -/
def hexCset : List UInt8 := ascii "0123456789abcdef" ++ [0]

/-- One pass of the second loop of `ipv6_to_str_part`, on the characters written:
the counter stays. -/
def ipv6ToStrPartPass (vals : List UInt8) (i : ℕ) (dest : List UInt8) :
    Exec (Pass (List UInt8) (List UInt8)) := do
  if i < 4 then
    let val ← readByte vals i
    let c ← readByte hexCset val.toNat
    .ok (.next (dest ++ [c]))
  else .ok (.done dest)

/-- `ipv6_to_str_part` of the two bytes at `off`; its second loop runs at most
`budget` times. -/
def ipv6ToStrPart (budget : ℕ) (bin : List UInt8) (off : ℕ) (dest : List UInt8) :
    Exec (List UInt8) := do
  let b0 ← readByte bin off
  let v0 ← readByte hexCset (b0.toNat >>> 4)
  let v1 ← readByte hexCset (b0.toNat &&& 15)
  let b1 ← readByte bin (off + 1)
  let v2 ← readByte hexCset (b1.toNat >>> 4)
  let v3 ← readByte hexCset (b1.toNat &&& 15)
  let vals := [v0, v1, v2, v3]
  let i := ((vals.take 3).takeWhile (· == 0)).length
  loop (ipv6ToStrPartPass vals i) budget dest

/-- The variables of the first loop of `ipv6_to_str`. -/
structure ScanState where
  i : ℕ
  start : ℕ
  maxStart : ℕ
  maxSize : ℕ

/-- One pass of the first loop of `ipv6_to_str`. -/
def scanPass (bin : List UInt8) (st : ScanState) : Exec (Pass ScanState (ℕ × ℕ)) := do
  if st.i ≤ 16 then
    let ends ← orElse (.ok (st.i == 16)) (andThen ((· != 0) <$> readByte bin st.i)
      ((· != 0) <$> readByte bin (st.i + 1)))
    if ends then
      let size := st.i - st.start
      if st.maxSize < size then
        .ok (.next { i := st.i + 2, start := st.i, maxStart := st.start, maxSize := size })
      else .ok (.next { st with i := st.i + 2, start := st.i })
    else .ok (.next { st with i := st.i + 2 })
  else .ok (.done (st.maxStart, st.maxSize))

/-- The first loop of `ipv6_to_str`: `max_start` and `max_size`. -/
def ipv6Scan (bin : List UInt8) : Exec (ℕ × ℕ) :=
  loop (scanPass bin) 10 { i := 0, start := 0, maxStart := 0, maxSize := 0 }

/-- The second and third loops of `ipv6_to_str`, for `i` up to `bound`: the groups at
`bin + off` and on, each with a colon behind it. -/
def ipv6ToStrGroups (budget : ℕ) (src : List UInt8) (i bound off : ℕ) (dest : List UInt8) :
    Exec (List UInt8 × ℕ) :=
  if i < bound then do
    let dest ← ipv6ToStrPart budget src off dest
    ipv6ToStrGroups budget src (i + 2) bound (off + 2) (dest ++ [chr ':'])
  else .ok (dest, off)
termination_by bound - i

/-- `ipv6_to_str`. -/
def ipv6ToStr (budget : ℕ) (src : List UInt8) : Exec (List UInt8) := do
  let (maxStart, maxSize) ← ipv6Scan src
  let (dest, off) ← ipv6ToStrGroups budget src 0 maxStart 0 []
  let (dest, off) := if maxSize ≠ 0 then (dest ++ [chr ':'], off + maxSize) else (dest, off)
  let (dest, _) ← ipv6ToStrGroups budget src (maxStart + maxSize) 16 off dest
  .ok (dest ++ [0])

/-- The variables of `ipv6_to_bin`; `comp` is -1 until a `::` is read. -/
structure Ipv6State where
  pos : ℕ
  comp : ℤ
  count : ℕ
  mapped : Bool
  bin : List UInt8

/-- The loop of `ipv6_to_bin` returns `EINVAL`, or is left. -/
inductive Ipv6Exit where
  | invalid (bin : List UInt8)
  | left (st : Ipv6State)

/-- The hexadecimal digits of a group behind the first one, from the `i`th on: the
value, the position behind the group, and whether a dot ends it, in which case the
position goes back to its first digit. -/
def ipv6Group (src : List UInt8) (mapped : Bool) (i v pos : ℕ) : Exec (ℕ × ℕ × Bool) :=
  if i < 4 then do
    let c ← readByte src pos
    if isxdigit c then ipv6Group src mapped (i + 1) (16 * v + (hexVal c).toNat) (pos + 1)
    else
      let mapped := c == chr '.'
      .ok (v, if mapped then pos - i else pos, mapped)
  else .ok (v, pos, mapped)
termination_by 4 - i

/-- One of the first `n` bytes is not zero. -/
def anyNonzero (bin : List UInt8) : ℕ → ℕ → Exec Bool
  | _, 0 => .ok false
  | i, n + 1 => orElse ((· != 0) <$> readByte bin i) (anyNonzero bin (i + 1) n)

/-- The branch of the loop of `ipv6_to_bin` for a dotted quad. -/
def ipv6Mapped (src : List UInt8) (st : Ipv6State) : Exec (Pass Ipv6State Ipv6Exit) := do
  let bad ← orElse (.ok (decide (st.count < 2))) <| orElse (.ok (decide (12 < st.count))) <|
    orElse ((· != 0xFF) <$> readByte st.bin (st.count - 1)) <|
    orElse ((· != 0xFF) <$> readByte st.bin (st.count - 2)) (.ok (st.comp == st.count))
  if bad then .ok (.done (.invalid st.bin)) else
  if ← anyNonzero st.bin 0 (st.count - 2) then .ok (.done (.invalid st.bin)) else
  let (code, bin) ← ipv4ToBin src st.pos st.bin st.count
  if code ≠ 0 then .ok (.done (.invalid bin))
  else .ok (.done (.left { st with bin := bin, count := st.count + 4 }))

/-- The rest of a pass of the loop of `ipv6_to_bin`, from the first digit on. -/
def ipv6Digits (src : List UInt8) (st : Ipv6State) : Exec (Pass Ipv6State Ipv6Exit) := do
  let c ← readByte src st.pos
  if !isxdigit c then .ok (.done (.invalid st.bin)) else
  let (v, pos, mapped) ← ipv6Group src st.mapped 1 (hexVal c).toNat (st.pos + 1)
  if mapped then ipv6Mapped src { st with pos := pos, mapped := true } else
  let bin ← writeByte st.bin st.count (UInt8.ofNat (v >>> 4 &&& 0xFF))
  let bin ← writeByte bin (st.count + 1) (UInt8.ofNat (v &&& 0xFF))
  .ok (.next { st with pos := pos, count := st.count + 2, mapped := false, bin := bin })

/-- One pass of the loop of `ipv6_to_bin`. -/
def ipv6ToBinPass (src : List UInt8) (st : Ipv6State) : Exec (Pass Ipv6State Ipv6Exit) := do
  let c ← readByte src st.pos
  if c = 0 ∨ 16 ≤ st.count + (if -1 < st.comp then 2 else 0) then .ok (.done (.left st)) else
  let pos := if c = chr ':' then st.pos + 1 else st.pos
  let c ← readByte src pos
  if c = chr ':' then
    if -1 < st.comp then .ok (.done (.invalid st.bin)) else
    let st := { st with pos := pos + 1, comp := st.count }
    let c ← readByte src st.pos
    if c = 0 then .ok (.done (.left st)) else ipv6Digits src st
  else ipv6Digits src { st with pos := pos }

/-- What `ipv6_to_bin` does when its loop is left: the part behind the `::` is moved to
the end. -/
def ipv6Expand (src : List UInt8) : Ipv6Exit → Exec (ℤ × List UInt8)
  | .invalid bin => .ok (EINVAL, bin)
  | .left st => do
      let more ← andThen (.ok (!st.mapped)) ((· != 0) <$> readByte src st.pos)
      if more then .ok (EINVAL, st.bin) else
      if -1 < st.comp then
        if 16 ≤ st.count then .ok (EINVAL, st.bin) else
        let len := 16 - st.count
        let start := st.comp.toNat
        let moved ← readBytes st.bin start len
        let bin ← writeBytes st.bin (start + len) moved
        let bin ← memzero bin start len
        .ok (0, bin)
      else if st.count < 16 then .ok (EINVAL, st.bin)
      else .ok (0, st.bin)

/-- `ipv6_to_bin`; every pass reads a group, so the loop ends after eight. -/
def ipv6ToBin (src dest : List UInt8) : Exec (ℤ × List UInt8) := do
  let c0 ← readByte src 0
  let bad ← andThen (.ok (c0 == chr ':')) ((· != chr ':') <$> readByte src 1)
  if bad then .ok (EINVAL, dest) else
  let exit ← loop (ipv6ToBinPass src) 9
    { pos := 0, comp := -1, count := 0, mapped := false, bin := dest }
  ipv6Expand src exit

/-- `ipv6_norm`; the address it reads into is not initialised. -/
def ipv6Norm (budget : ℕ) (src bin : List UInt8) : Exec (ℤ × List UInt8) := do
  let (code, bin) ← ipv6ToBin src bin
  if code ≠ 0 then .ok (EINVAL, []) else
  let dest ← ipv6ToStr budget bin
  .ok (0, dest)

end Hlibc.Inet
