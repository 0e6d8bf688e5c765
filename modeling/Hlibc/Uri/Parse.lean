import Hlibc.Inet
import Hlibc.Support.Grammar

/-!
# `uri.c`: the parser

`uri_parse_segments` and the functions it is made of.  The text is an object,
and a pointer into it an offset; a slice of the text is its offset and its size.
-/

set_option autoImplicit false

namespace Hlibc.Uri

open Grammar Inet

/-! ## Tables -/

set_option maxRecDepth 2000 in
/-- `scheme_cset`. -/
def schemeCset : List ℕ := [
  0, 0, 0, 0, 0, 0, 0, 0, 0, 0, 0, 0, 0, 0, 0, 0, 0, 0, 0, 0, 0, 0, 0, 0,
  0, 0, 0, 0, 0, 0, 0, 0, 0, 0, 0, 0, 0, 0, 0, 0, 0, 0, 0, 1, 0, 1, 1, 0,
  1, 1, 1, 1, 1, 1, 1, 1, 1, 1, 0, 0, 0, 0, 0, 0, 0, 1, 1, 1, 1, 1, 1, 1,
  1, 1, 1, 1, 1, 1, 1, 1, 1, 1, 1, 1, 1, 1, 1, 1, 1, 1, 1, 0, 0, 0, 0, 0,
  0, 1, 1, 1, 1, 1, 1, 1, 1, 1, 1, 1, 1, 1, 1, 1, 1, 1, 1, 1, 1, 1, 1, 1,
  1, 1, 1, 0, 0, 0, 0, 0, 0, 0, 0, 0, 0, 0, 0, 0, 0, 0, 0, 0, 0, 0, 0, 0,
  0, 0, 0, 0, 0, 0, 0, 0, 0, 0, 0, 0, 0, 0, 0, 0, 0, 0, 0, 0, 0, 0, 0, 0,
  0, 0, 0, 0, 0, 0, 0, 0, 0, 0, 0, 0, 0, 0, 0, 0, 0, 0, 0, 0, 0, 0, 0, 0,
  0, 0, 0, 0, 0, 0, 0, 0, 0, 0, 0, 0, 0, 0, 0, 0, 0, 0, 0, 0, 0, 0, 0, 0,
  0, 0, 0, 0, 0, 0, 0, 0, 0, 0, 0, 0, 0, 0, 0, 0, 0, 0, 0, 0, 0, 0, 0, 0,
  0, 0, 0, 0, 0, 0, 0, 0, 0, 0, 0, 0, 0, 0, 0, 0]

set_option maxRecDepth 2000 in
/-- `userinfo_cset`. -/
def userinfoCset : List ℕ := [
  0, 0, 0, 0, 0, 0, 0, 0, 0, 0, 0, 0, 0, 0, 0, 0, 0, 0, 0, 0, 0, 0, 0, 0,
  0, 0, 0, 0, 0, 0, 0, 0, 0, 1, 0, 0, 1, 0, 1, 0, 1, 1, 1, 1, 1, 1, 1, 0,
  1, 1, 1, 1, 1, 1, 1, 1, 1, 1, 1, 1, 0, 1, 0, 0, 0, 1, 1, 1, 1, 1, 1, 1,
  1, 1, 1, 1, 1, 1, 1, 1, 1, 1, 1, 1, 1, 1, 1, 1, 1, 1, 1, 0, 1, 0, 0, 1,
  0, 1, 1, 1, 1, 1, 1, 1, 1, 1, 1, 1, 1, 1, 1, 1, 1, 1, 1, 1, 1, 1, 1, 1,
  1, 1, 1, 0, 0, 0, 1, 0, 0, 0, 0, 0, 0, 0, 0, 0, 0, 0, 0, 0, 0, 0, 0, 0,
  0, 0, 0, 0, 0, 0, 0, 0, 0, 0, 0, 0, 0, 0, 0, 0, 0, 0, 0, 0, 0, 0, 0, 0,
  0, 0, 0, 0, 0, 0, 0, 0, 0, 0, 0, 0, 0, 0, 0, 0, 0, 0, 0, 0, 0, 0, 0, 0,
  0, 0, 0, 0, 0, 0, 0, 0, 0, 0, 0, 0, 0, 0, 0, 0, 0, 0, 0, 0, 0, 0, 0, 0,
  0, 0, 0, 0, 0, 0, 0, 0, 0, 0, 0, 0, 0, 0, 0, 0, 0, 0, 0, 0, 0, 0, 0, 0,
  0, 0, 0, 0, 0, 0, 0, 0, 0, 0, 0, 0, 0, 0, 0, 0]

set_option maxRecDepth 2000 in
/-- `name_cset`. -/
def nameCset : List ℕ := [
  0, 0, 0, 0, 0, 0, 0, 0, 0, 0, 0, 0, 0, 0, 0, 0, 0, 0, 0, 0, 0, 0, 0, 0,
  0, 0, 0, 0, 0, 0, 0, 0, 0, 1, 0, 0, 1, 0, 1, 0, 1, 1, 1, 1, 1, 1, 1, 0,
  1, 1, 1, 1, 1, 1, 1, 1, 1, 1, 0, 1, 0, 1, 0, 0, 0, 1, 1, 1, 1, 1, 1, 1,
  1, 1, 1, 1, 1, 1, 1, 1, 1, 1, 1, 1, 1, 1, 1, 1, 1, 1, 1, 0, 1, 0, 0, 1,
  0, 1, 1, 1, 1, 1, 1, 1, 1, 1, 1, 1, 1, 1, 1, 1, 1, 1, 1, 1, 1, 1, 1, 1,
  1, 1, 1, 0, 0, 0, 1, 0, 0, 0, 0, 0, 0, 0, 0, 0, 0, 0, 0, 0, 0, 0, 0, 0,
  0, 0, 0, 0, 0, 0, 0, 0, 0, 0, 0, 0, 0, 0, 0, 0, 0, 0, 0, 0, 0, 0, 0, 0,
  0, 0, 0, 0, 0, 0, 0, 0, 0, 0, 0, 0, 0, 0, 0, 0, 0, 0, 0, 0, 0, 0, 0, 0,
  0, 0, 0, 0, 0, 0, 0, 0, 0, 0, 0, 0, 0, 0, 0, 0, 0, 0, 0, 0, 0, 0, 0, 0,
  0, 0, 0, 0, 0, 0, 0, 0, 0, 0, 0, 0, 0, 0, 0, 0, 0, 0, 0, 0, 0, 0, 0, 0,
  0, 0, 0, 0, 0, 0, 0, 0, 0, 0, 0, 0, 0, 0, 0, 0]

set_option maxRecDepth 2000 in
/-- `query_cset`. -/
def queryCset : List ℕ := [
  0, 0, 0, 0, 0, 0, 0, 0, 0, 0, 0, 0, 0, 0, 0, 0, 0, 0, 0, 0, 0, 0, 0, 0,
  0, 0, 0, 0, 0, 0, 0, 0, 0, 1, 0, 0, 1, 0, 1, 0, 1, 1, 1, 1, 1, 1, 1, 1,
  1, 1, 1, 1, 1, 1, 1, 1, 1, 1, 1, 1, 0, 1, 0, 1, 1, 1, 1, 1, 1, 1, 1, 1,
  1, 1, 1, 1, 1, 1, 1, 1, 1, 1, 1, 1, 1, 1, 1, 1, 1, 1, 1, 0, 1, 0, 0, 1,
  0, 1, 1, 1, 1, 1, 1, 1, 1, 1, 1, 1, 1, 1, 1, 1, 1, 1, 1, 1, 1, 1, 1, 1,
  1, 1, 1, 0, 0, 0, 1, 0, 0, 0, 0, 0, 0, 0, 0, 0, 0, 0, 0, 0, 0, 0, 0, 0,
  0, 0, 0, 0, 0, 0, 0, 0, 0, 0, 0, 0, 0, 0, 0, 0, 0, 0, 0, 0, 0, 0, 0, 0,
  0, 0, 0, 0, 0, 0, 0, 0, 0, 0, 0, 0, 0, 0, 0, 0, 0, 0, 0, 0, 0, 0, 0, 0,
  0, 0, 0, 0, 0, 0, 0, 0, 0, 0, 0, 0, 0, 0, 0, 0, 0, 0, 0, 0, 0, 0, 0, 0,
  0, 0, 0, 0, 0, 0, 0, 0, 0, 0, 0, 0, 0, 0, 0, 0, 0, 0, 0, 0, 0, 0, 0, 0,
  0, 0, 0, 0, 0, 0, 0, 0, 0, 0, 0, 0, 0, 0, 0, 0]

set_option maxRecDepth 2000 in
/-- `fragment_cset`. -/
def fragmentCset : List ℕ := [
  0, 0, 0, 0, 0, 0, 0, 0, 0, 0, 0, 0, 0, 0, 0, 0, 0, 0, 0, 0, 0, 0, 0, 0,
  0, 0, 0, 0, 0, 0, 0, 0, 0, 1, 0, 0, 1, 0, 1, 0, 1, 1, 1, 1, 1, 1, 1, 1,
  1, 1, 1, 1, 1, 1, 1, 1, 1, 1, 1, 1, 0, 1, 0, 1, 1, 1, 1, 1, 1, 1, 1, 1,
  1, 1, 1, 1, 1, 1, 1, 1, 1, 1, 1, 1, 1, 1, 1, 1, 1, 1, 1, 0, 1, 0, 0, 1,
  0, 1, 1, 1, 1, 1, 1, 1, 1, 1, 1, 1, 1, 1, 1, 1, 1, 1, 1, 1, 1, 1, 1, 1,
  1, 1, 1, 0, 0, 0, 1, 0, 0, 0, 0, 0, 0, 0, 0, 0, 0, 0, 0, 0, 0, 0, 0, 0,
  0, 0, 0, 0, 0, 0, 0, 0, 0, 0, 0, 0, 0, 0, 0, 0, 0, 0, 0, 0, 0, 0, 0, 0,
  0, 0, 0, 0, 0, 0, 0, 0, 0, 0, 0, 0, 0, 0, 0, 0, 0, 0, 0, 0, 0, 0, 0, 0,
  0, 0, 0, 0, 0, 0, 0, 0, 0, 0, 0, 0, 0, 0, 0, 0, 0, 0, 0, 0, 0, 0, 0, 0,
  0, 0, 0, 0, 0, 0, 0, 0, 0, 0, 0, 0, 0, 0, 0, 0, 0, 0, 0, 0, 0, 0, 0, 0,
  0, 0, 0, 0, 0, 0, 0, 0, 0, 0, 0, 0, 0, 0, 0, 0]

set_option maxRecDepth 2000 in
/-- `ipvf_cset`. -/
def ipvfCset : List ℕ := [
  0, 0, 0, 0, 0, 0, 0, 0, 0, 0, 0, 0, 0, 0, 0, 0, 0, 0, 0, 0, 0, 0, 0, 0,
  0, 0, 0, 0, 0, 0, 0, 0, 0, 1, 0, 0, 1, 0, 1, 0, 1, 1, 1, 1, 1, 1, 1, 0,
  1, 1, 1, 1, 1, 1, 1, 1, 1, 1, 1, 1, 0, 1, 0, 0, 0, 1, 1, 1, 1, 1, 1, 1,
  1, 1, 1, 1, 1, 1, 1, 1, 1, 1, 1, 1, 1, 1, 1, 1, 1, 1, 1, 0, 1, 0, 0, 1,
  0, 1, 1, 1, 1, 1, 1, 1, 1, 1, 1, 1, 1, 1, 1, 1, 1, 1, 1, 1, 1, 1, 1, 1,
  1, 1, 1, 0, 0, 0, 1, 0, 0, 0, 0, 0, 0, 0, 0, 0, 0, 0, 0, 0, 0, 0, 0, 0,
  0, 0, 0, 0, 0, 0, 0, 0, 0, 0, 0, 0, 0, 0, 0, 0, 0, 0, 0, 0, 0, 0, 0, 0,
  0, 0, 0, 0, 0, 0, 0, 0, 0, 0, 0, 0, 0, 0, 0, 0, 0, 0, 0, 0, 0, 0, 0, 0,
  0, 0, 0, 0, 0, 0, 0, 0, 0, 0, 0, 0, 0, 0, 0, 0, 0, 0, 0, 0, 0, 0, 0, 0,
  0, 0, 0, 0, 0, 0, 0, 0, 0, 0, 0, 0, 0, 0, 0, 0, 0, 0, 0, 0, 0, 0, 0, 0,
  0, 0, 0, 0, 0, 0, 0, 0, 0, 0, 0, 0, 0, 0, 0, 0]

set_option maxRecDepth 2000 in
/-- `path_cset`. -/
def pathCset : List ℕ := [
  0, 0, 0, 0, 0, 0, 0, 0, 0, 0, 0, 0, 0, 0, 0, 0, 0, 0, 0, 0, 0, 0, 0, 0,
  0, 0, 0, 0, 0, 0, 0, 0, 0, 1, 0, 0, 1, 0, 1, 0, 1, 1, 1, 1, 1, 1, 1, 1,
  1, 1, 1, 1, 1, 1, 1, 1, 1, 1, 1, 1, 0, 1, 0, 0, 1, 1, 1, 1, 1, 1, 1, 1,
  1, 1, 1, 1, 1, 1, 1, 1, 1, 1, 1, 1, 1, 1, 1, 1, 1, 1, 1, 0, 1, 0, 0, 1,
  0, 1, 1, 1, 1, 1, 1, 1, 1, 1, 1, 1, 1, 1, 1, 1, 1, 1, 1, 1, 1, 1, 1, 1,
  1, 1, 1, 0, 0, 0, 1, 0, 0, 0, 0, 0, 0, 0, 0, 0, 0, 0, 0, 0, 0, 0, 0, 0,
  0, 0, 0, 0, 0, 0, 0, 0, 0, 0, 0, 0, 0, 0, 0, 0, 0, 0, 0, 0, 0, 0, 0, 0,
  0, 0, 0, 0, 0, 0, 0, 0, 0, 0, 0, 0, 0, 0, 0, 0, 0, 0, 0, 0, 0, 0, 0, 0,
  0, 0, 0, 0, 0, 0, 0, 0, 0, 0, 0, 0, 0, 0, 0, 0, 0, 0, 0, 0, 0, 0, 0, 0,
  0, 0, 0, 0, 0, 0, 0, 0, 0, 0, 0, 0, 0, 0, 0, 0, 0, 0, 0, 0, 0, 0, 0, 0,
  0, 0, 0, 0, 0, 0, 0, 0, 0, 0, 0, 0, 0, 0, 0, 0]

/-- `(unsigned)c` of a signed character. -/
def charIndex (c : UInt8) : ℕ := if c.toNat < 128 then c.toNat else 2 ^ 32 - 256 + c.toNat

/-- `cset[(unsigned)*pos]`. -/
def inCset (cset : List ℕ) (src : List UInt8) (pos : ℕ) : Exec Bool := do
  let c ← readByte src pos
  match cset[charIndex c]? with
  | some v => .ok (v != 0)
  | none => .error .read

/-- `is_pct_enc`. -/
def isPctEnc (src : List UInt8) (pos : ℕ) : Exec Bool :=
  andThen ((· == chr '%') <$> readByte src pos) <|
    andThen (isxdigit <$> readByte src (pos + 1)) (isxdigit <$> readByte src (pos + 2))

def isSchemeCset (src : List UInt8) (pos : ℕ) : Exec Bool := inCset schemeCset src pos

def isUserinfoCset (src : List UInt8) (pos : ℕ) : Exec Bool :=
  orElse (inCset userinfoCset src pos) (isPctEnc src pos)

def isQueryCset (src : List UInt8) (pos : ℕ) : Exec Bool :=
  orElse (inCset queryCset src pos) (isPctEnc src pos)

def isFragmentCset (src : List UInt8) (pos : ℕ) : Exec Bool :=
  orElse (inCset fragmentCset src pos) (isPctEnc src pos)

def isNameCset (src : List UInt8) (pos : ℕ) : Exec Bool :=
  orElse (inCset nameCset src pos) (isPctEnc src pos)

def isIpvfCset (src : List UInt8) (pos : ℕ) : Exec Bool := inCset ipvfCset src pos

def isPathCset (src : List UInt8) (pos : ℕ) : Exec Bool :=
  orElse (inCset pathCset src pos) (isPctEnc src pos)

/-! ## Components -/

/-- `while (test(pos)) pos++;` over the text; every pass reads a byte of it. -/
def skipWhile (src : List UInt8) (test : List UInt8 → ℕ → Exec Bool) (pos : ℕ) : Exec ℕ :=
  whileLoop (test src) (src.length + 1) pos

/-- `parse_scheme`: the code it returns, and `*src_pos`. -/
def parseScheme (src : List UInt8) (srcPos : ℕ) : Exec (ℤ × ℕ) := do
  let c ← readByte src srcPos
  if !hlibIsalpha c then .ok (EINVAL, srcPos) else
  let pos ← skipWhile src isSchemeCset srcPos
  let c ← readByte src pos
  if c ≠ chr ':' then .ok (EINVAL, srcPos) else
  .ok (0, pos + 1)

/-- `parse_userinfo`. -/
def parseUserinfo (src : List UInt8) (srcPos : ℕ) : Exec (ℤ × ℕ) := do
  let pos ← skipWhile src isUserinfoCset srcPos
  let c ← readByte src pos
  if c ≠ chr '@' then .ok (EINVAL, srcPos) else
  .ok (0, pos + 1)

/-- `parse_query`. -/
def parseQuery (src : List UInt8) (srcPos : ℕ) : Exec (ℤ × ℕ) := do
  let pos ← skipWhile src isQueryCset srcPos
  .ok (0, pos)

/-- `parse_fragment`. -/
def parseFragment (src : List UInt8) (srcPos : ℕ) : Exec (ℤ × ℕ) := do
  let pos ← skipWhile src isFragmentCset srcPos
  .ok (0, pos)

/-- `parse_ipvf`. -/
def parseIpvf (src : List UInt8) (srcPos : ℕ) : Exec (ℤ × ℕ) := do
  let bad ← orElse ((· != chr '[') <$> readByte src srcPos) <|
    orElse ((· != chr 'v') <$> readByte src (srcPos + 1))
      ((fun c => !isxdigit c) <$> readByte src (srcPos + 2))
  if bad then .ok (EINVAL, srcPos) else
  let pos ← skipWhile src (fun src pos => isxdigit <$> readByte src pos) (srcPos + 3)
  let bad ← orElse ((· != chr '.') <$> readByte src pos)
    ((fun ok => !ok) <$> isIpvfCset src (pos + 1))
  if bad then .ok (EINVAL, srcPos) else
  let pos ← skipWhile src isIpvfCset (pos + 2)
  let c ← readByte src pos
  if c ≠ chr ']' then .ok (EINVAL, srcPos) else
  .ok (0, pos + 1)

/-- `enum uri_host_type`. -/
inductive HostType where
  | ipv4
  | ipv6
  | ipvf
  | name
  deriving DecidableEq

/-- The variables of the loop that copies the text between brackets. -/
structure CopyState where
  i : ℕ
  pos : ℕ
  host : List UInt8

/-- One pass of the loop that copies the text between brackets; `none` is the return
of `EINVAL`. -/
def copyBracketPass (src : List UInt8) (st : CopyState) :
    Exec (Pass CopyState (Option (List UInt8))) := do
  if st.i < 40 then
    let c ← readByte src st.pos
    if c = 0 then .ok (.done none)
    else if c = chr ']' then
      let host ← writeByte st.host st.i 0
      .ok (.done (some host))
    else
      let host ← writeByte st.host st.i c
      .ok (.next { i := st.i + 1, pos := st.pos + 1, host := host })
  else .ok (.done (some st.host))

/-- One pass of the loop that tries the digits and dots at `pos` as an IPv4 address; it
gives how many there are, if they are one. -/
def tryIpv4Pass (src : List UInt8) (pos : ℕ) (st : ℕ × List UInt8) :
    Exec (Pass (ℕ × List UInt8) (Option ℕ)) := do
  let (i, host) := st
  if i < 16 then
    let c ← readByte src (pos + i)
    if isdigit c || c == chr '.' then
      let host ← writeByte host i c
      .ok (.next (i + 1, host))
    else
      let host ← writeByte host i 0
      let (code, _) ← ipv4ToBin host 0 (List.replicate 4 0) 0
      .ok (.done (if code = 0 then some i else none))
  else .ok (.done none)

/-- `parse_host`: the code it returns, `*src_pos`, and `*type`, which it always sets.  The
local arrays are not initialised, and what they hold before is not used. -/
def parseHost (src : List UInt8) (srcPos : ℕ) : Exec (ℤ × ℕ × HostType) := do
  let (code, pos) ← parseIpvf src srcPos
  if code = 0 then .ok (0, srcPos, .ipvf) else
  let c ← readByte src pos
  if c = chr '[' then
    match ← loop (copyBracketPass src) 41
      { i := 0, pos := pos + 1, host := List.replicate 40 0 } with
    | none => .ok (EINVAL, srcPos, .ipv6)
    | some host =>
        let (code, _) ← ipv6ToBin host (List.replicate 16 0)
        if code ≠ 0 then .ok (EINVAL, srcPos, .ipv6) else
        .ok (0, srcPos, .ipv6)
  else
    match ← loop (tryIpv4Pass src pos) 17 (0, List.replicate 16 0) with
    | some i => .ok (0, pos + i, .ipv4)
    | none =>
        let _ ← skipWhile src isNameCset pos
        .ok (0, srcPos, .name)

/-- `parse_port`. -/
def parsePort (src : List UInt8) (srcPos : ℕ) : Exec (ℤ × ℕ) := do
  let pos ← skipWhile src (fun src pos => isdigit <$> readByte src pos) srcPos
  .ok (0, pos)

/-- One pass of the loop of `parse_path` over a first segment without a colon; `none` is
the return of `EINVAL`. -/
def noColonPass (src : List UInt8) (pos : ℕ) : Exec (Pass ℕ (Option ℕ)) := do
  let more ← andThen (isPathCset src pos) ((· != chr '/') <$> readByte src pos)
  if more then
    let c ← readByte src pos
    if c = chr ':' then .ok (.done none) else .ok (.next (pos + 1))
  else .ok (.done (some pos))

/-- `parse_path`. -/
def parsePath (src : List UInt8) (srcPos : ℕ) (scheme authority : Bool) : Exec (ℤ × ℕ) := do
  if authority then
    let bad ← andThen ((· != chr '/') <$> readByte src srcPos) (isPathCset src srcPos)
    if bad then .ok (EINVAL, srcPos) else
    let pos ← skipWhile src isPathCset srcPos
    .ok (0, pos)
  else if !scheme then
    match ← loop (noColonPass src) (src.length + 1) srcPos with
    | none => .ok (EINVAL, srcPos)
    | some pos =>
        let pos ← skipWhile src isPathCset pos
        .ok (0, pos)
  else
    let pos ← skipWhile src isPathCset srcPos
    .ok (0, pos)

/-! ## `uri_parse_segments` -/

/-- `struct string_view`; its `str` is an offset in the text, or `NULL`. -/
structure StringView where
  str : Option ℕ
  size : ℕ
  deriving DecidableEq

/-- A zeroed `struct string_view`. -/
def StringView.null : StringView := { str := none, size := 0 }

/-- `struct uri_segments`. -/
structure UriSegments where
  scheme : StringView
  userinfo : StringView
  host : StringView
  port : StringView
  path : StringView
  query : StringView
  fragment : StringView
  hostType : HostType
  deriving DecidableEq

/-- A zeroed `struct uri_segments`. -/
def UriSegments.zero : UriSegments where
  scheme := .null
  userinfo := .null
  host := .null
  port := .null
  path := .null
  query := .null
  fragment := .null
  hostType := .ipv4

/-- The end of `uri_parse_segments`: whether the text is used up. -/
def uriEnd (src : List UInt8) (pos : ℕ) (dest : UriSegments) : Exec (ℤ × UriSegments) := do
  let c ← readByte src pos
  .ok (if c ≠ 0 then EINVAL else 0, dest)

/-- `uri_parse_segments` from the fragment on. -/
def uriFragment (src : List UInt8) (pos : ℕ) (dest : UriSegments) :
    Exec (ℤ × UriSegments) := do
  let c ← readByte src pos
  if c = chr '#' then
    let last := pos + 1
    let (code, pos) ← parseFragment src last
    if code ≠ 0 then .ok (EINVAL, dest) else
    uriEnd src pos { dest with fragment := { str := some last, size := pos - last } }
  else uriEnd src pos dest

/-- `uri_parse_segments` from the query on. -/
def uriQuery (src : List UInt8) (pos : ℕ) (dest : UriSegments) :
    Exec (ℤ × UriSegments) := do
  let c ← readByte src pos
  if c = chr '?' then
    let last := pos + 1
    let (code, pos) ← parseQuery src last
    if code ≠ 0 then .ok (EINVAL, dest) else
    uriFragment src pos { dest with query := { str := some last, size := pos - last } }
  else uriFragment src pos dest

/-- `uri_parse_segments` from the path on. -/
def uriPath (src : List UInt8) (last : ℕ) (dest : UriSegments) : Exec (ℤ × UriSegments) := do
  let (code, pos) ← parsePath src last dest.scheme.str.isSome dest.host.str.isSome
  if code ≠ 0 then .ok (EINVAL, dest) else
  uriQuery src pos { dest with path := { str := some last, size := pos - last } }

/-- `uri_parse_segments` from the port on. -/
def uriPort (src : List UInt8) (pos : ℕ) (dest : UriSegments) : Exec (ℤ × UriSegments) := do
  let c ← readByte src pos
  if c = chr ':' then
    let last := pos + 1
    let (code, pos) ← parsePort src last
    if code ≠ 0 then .ok (EINVAL, dest) else
    uriPath src pos { dest with port := { str := some last, size := pos - last } }
  else uriPath src pos dest

/-- `uri_parse_segments` from the host on. -/
def uriHost (src : List UInt8) (last : ℕ) (dest : UriSegments) : Exec (ℤ × UriSegments) := do
  let (code, pos, type) ← parseHost src last
  if code ≠ 0 then .ok (EINVAL, { dest with hostType := type }) else
  uriPort src pos
    { dest with hostType := type, host := { str := some last, size := pos - last } }

/-- `uri_parse_segments` from the user information on. -/
def uriAuthority (src : List UInt8) (last : ℕ) (dest : UriSegments) :
    Exec (ℤ × UriSegments) := do
  let (code, pos) ← parseUserinfo src last
  if code = 0 then
    uriHost src pos { dest with userinfo := { str := some last, size := pos - last - 1 } }
  else uriHost src pos dest

/-- `uri_parse_segments` behind the scheme. -/
def uriHierPart (src : List UInt8) (last : ℕ) (dest : UriSegments) :
    Exec (ℤ × UriSegments) := do
  let slashes ← andThen ((· == chr '/') <$> readByte src last)
    ((· == chr '/') <$> readByte src (last + 1))
  if slashes then uriAuthority src (last + 2) dest
  else uriPath src last dest

/-- `uri_parse_segments`: the code it returns, and `*dest`. -/
def uriParseSegments (src : List UInt8) : Exec (ℤ × UriSegments) := do
  let dest := UriSegments.zero
  let (code, pos) ← parseScheme src 0
  if code = 0 then
    uriHierPart src pos { dest with scheme := { str := some 0, size := pos - 0 - 1 } }
  else uriHierPart src 0 dest

end Hlibc.Uri
