import Hlibc.Uri.Parse

/-!
# `uri.c`: the normalisers

The functions that rewrite one component of an identifier.  The object that is written
is passed with the place up to which it is written, and comes back with the code.
-/

set_option autoImplicit false

namespace Hlibc.Uri

open Inet

/-! ## `normalize_with_cset` -/

/-- `src` and `dest` of the loops: where is read, the object written, and where. -/
structure NormState where
  pos : ℕ
  dest : List UInt8
  off : ℕ

/-- `cset[v]`. -/
def csetAt (cset : List ℕ) (v : ℕ) : Exec Bool :=
  match cset[v]? with
  | some v => .ok (v != 0)
  | none => .error .read

/-- One pass of the loop of `normalize_with_cset`. -/
def normalizePass (src : List UInt8) (cset : List ℕ) (st : NormState) :
    Exec (Pass NormState (ℤ × List UInt8)) := do
  let c ← readByte src st.pos
  if c = 0 then
    let dest ← writeByte st.dest st.off 0
    .ok (.done (0, dest))
  else if c = chr '%' then
    let c1 ← readByte src (st.pos + 1)
    let a := hexVal c1
    if a < 0 then .ok (.done (EINVAL, st.dest)) else
    let c2 ← readByte src (st.pos + 2)
    let b := hexVal c2
    if b < 0 then .ok (.done (EINVAL, st.dest)) else
    let v := (16 * a + b).toNat
    if ← csetAt cset v then
      let dest ← writeByte st.dest st.off (UInt8.ofNat v)
      .ok (.next { pos := st.pos + 3, dest := dest, off := st.off + 1 })
    else
      let dest ← writeByte st.dest st.off (chr '%')
      let dest ← writeByte dest (st.off + 1) (toupper c1)
      let dest ← writeByte dest (st.off + 2) (toupper c2)
      .ok (.next { pos := st.pos + 3, dest := dest, off := st.off + 3 })
  else if ← inCset cset src st.pos then
    let dest ← writeByte st.dest st.off c
    .ok (.next { pos := st.pos + 1, dest := dest, off := st.off + 1 })
  else .ok (.done (EINVAL, st.dest))

/-- `normalize_with_cset` from `src + pos` to `dest + off`; every pass reads a character. -/
def normalizeWithCset (src : List UInt8) (pos : ℕ) (dest : List UInt8) (off : ℕ)
    (cset : List ℕ) : Exec (ℤ × List UInt8) :=
  loop (normalizePass src cset) (src.length + 1) { pos := pos, dest := dest, off := off }

/-! ## Components -/

/-- One pass of the loop of `uri_normalize_scheme`. -/
def normalizeSchemePass (src : List UInt8) (st : NormState) :
    Exec (Pass NormState (ℤ × List UInt8)) := do
  let c ← readByte src st.pos
  if c = 0 then .ok (.done (0, st.dest))
  else if ← inCset schemeCset src st.pos then
    let dest ← writeByte st.dest st.off (tolower c)
    .ok (.next { pos := st.pos + 1, dest := dest, off := st.off + 1 })
  else .ok (.done (EINVAL, st.dest))

/-- `uri_normalize_scheme`. -/
def uriNormalizeScheme (src dest : List UInt8) : Exec (ℤ × List UInt8) := do
  let c ← readByte src 0
  if !hlibIsalpha c then .ok (EINVAL, dest) else
  let dest ← writeByte dest 0 (tolower c)
  loop (normalizeSchemePass src) (src.length + 1) { pos := 1, dest := dest, off := 1 }

/-- `uri_normalize_userinfo`. -/
def uriNormalizeUserinfo (src dest : List UInt8) : Exec (ℤ × List UInt8) :=
  normalizeWithCset src 0 dest 0 userinfoCset

/-- One pass of the loop of `uri_normalize_host` over the text between brackets, from
`src` on; it gives the text, or `none` for the return of `EINVAL`. -/
def bracketTextPass (src : List UInt8) (pos : ℕ) (st : ℕ × List UInt8) :
    Exec (Pass (ℕ × List UInt8) (Option (List UInt8))) := do
  let (i, host) := st
  let more ← andThen (.ok (decide (i < 40))) ((· != 0) <$> readByte src (pos + i))
  if !more then .ok (.done none) else
  let c ← readByte src (pos + i)
  if c = chr ']' then
    let next ← readByte src (pos + i + 1)
    if next ≠ 0 then .ok (.done none) else
    let host ← writeByte host i 0
    .ok (.done (some host))
  else
    let host ← writeByte host i c
    .ok (.next (i + 1, host))

/-- `strlen`, from `off` on. -/
def strlen (dst : List UInt8) (off : ℕ) : Exec ℕ := do
  let last ← Grammar.whileLoop (fun pos => (· != 0) <$> readByte dst pos) (dst.length + 1) off
  .ok (last - off)

/-- `strcat` of the string `text` to the one at `off`. -/
def strcat (dst : List UInt8) (off : ℕ) (text : List UInt8) : Exec (List UInt8) := do
  let len ← strlen dst off
  writeBytes dst (off + len) (text ++ [0])

/-- `uri_normalize_host` of an address between brackets.  The array `host` is not
initialised, and what it holds before is not used. -/
def normalizeIpv6 (budget : ℕ) (bin src : List UInt8) (pos : ℕ) (dest : List UInt8) :
    Exec (ℤ × List UInt8) := do
  let c ← readByte src pos
  if c ≠ chr '[' then .ok (EINVAL, dest) else
  let dest ← writeByte dest 0 (chr '[')
  match ← loop (bracketTextPass src (pos + 1)) 41 (0, List.replicate 40 0) with
  | none => .ok (EINVAL, dest)
  | some host =>
      let (code, text) ← ipv6Norm budget host bin
      if code ≠ 0 then .ok (EINVAL, dest) else
      let dest ← writeBytes dest 1 text
      let dest ← strcat dest 1 (ascii "]")
      .ok (0, dest)

/-- One pass of the loop of `uri_normalize_host` over the version of a literal. -/
def normalizeVersionPass (src : List UInt8) (st : NormState) :
    Exec (Pass NormState NormState) := do
  let c ← readByte src st.pos
  if isxdigit c then
    let dest ← writeByte st.dest st.off (tolower c)
    .ok (.next { pos := st.pos + 1, dest := dest, off := st.off + 1 })
  else .ok (.done st)

/-- `uri_normalize_host` of a literal of a later version. -/
def normalizeIpvf (src : List UInt8) (pos : ℕ) (dest : List UInt8) :
    Exec (ℤ × List UInt8) := do
  let c0 ← readByte src pos
  if c0 ≠ chr '[' then .ok (EINVAL, dest) else
  let c1 ← readByte src (pos + 1)
  if c1 ≠ chr 'v' then .ok (EINVAL, dest) else
  let c2 ← readByte src (pos + 2)
  if !isxdigit c2 then .ok (EINVAL, dest) else
  let dest ← writeByte dest 0 c0
  let dest ← writeByte dest 1 c1
  let dest ← writeByte dest 2 (tolower c2)
  let st ← loop (normalizeVersionPass src) (src.length + 1)
    { pos := pos + 3, dest := dest, off := 3 }
  let c ← readByte src st.pos
  if c ≠ chr '.' then .ok (EINVAL, st.dest) else
  normalizeWithCset src st.pos st.dest st.off ipvfCset

/-- `uri_normalize_host`; `bin` is what the array of `ipv6_norm` holds before, and
`budget` bounds the loop of `ipv6_to_str_part`. -/
def uriNormalizeHost (budget : ℕ) (bin src dest : List UInt8) : Exec (ℤ × List UInt8) := do
  let (code, pos, type) ← parseHost src 0
  if code ≠ 0 then .ok (EINVAL, dest) else
  match type with
  | .ipv6 => normalizeIpv6 budget bin src pos dest
  | .ipvf => normalizeIpvf src pos dest
  | .name => normalizeWithCset src pos dest 0 nameCset
  | .ipv4 => .ok (0, dest)

/-- `uri_normalize_path`. -/
def uriNormalizePath (src dest : List UInt8) : Exec (ℤ × List UInt8) :=
  normalizeWithCset src 0 dest 0 pathCset

/-- `uri_normalize_query`. -/
def uriNormalizeQuery (src dest : List UInt8) : Exec (ℤ × List UInt8) :=
  normalizeWithCset src 0 dest 0 queryCset

/-- `uri_normalize_fragment`. -/
def uriNormalizeFragment (src dest : List UInt8) : Exec (ℤ × List UInt8) :=
  normalizeWithCset src 0 dest 0 fragmentCset

end Hlibc.Uri
