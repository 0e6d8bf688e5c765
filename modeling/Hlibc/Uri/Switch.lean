import Hlibc.Uri.AddressScan
import Hlibc.Uri.Parse

/-!
# `etc/uri/uri_switch.c`

The parser of `uri_switch.c`.  The tables of the file and its functions from `is_pct_enc` to
`is_path_cset`, for the user information, the query, the fragment, the port, the path and the
literals of later versions are those of `uri.c`, and so is what it does behind the host; here
are the functions that differ.
-/

set_option autoImplicit false

namespace Hlibc.Uri.Switch

/-- `parse_scheme`. -/
def parseScheme (src : List UInt8) (srcPos : ℕ) : Exec (ℤ × ℕ) := do
  let c ← readByte src srcPos
  if isalpha c then
    let pos ← skipWhile src isSchemeCset srcPos
    let c ← readByte src pos
    if c = chr ':' then .ok (0, pos + 1) else .ok (EINVAL, srcPos)
  else .ok (EINVAL, srcPos)

/-- `parse_name`. -/
def parseName (src : List UInt8) (srcPos : ℕ) : Exec (ℤ × ℕ) := do
  let pos ← skipWhile src isNameCset srcPos
  .ok (0, pos)

/-- `parse_ipv4`. -/
def parseIpv4 (src : List UInt8) (srcPos : ℕ) : Exec (ℤ × ℕ) := do
  match ← octetsScan isdigit (10 * ·) src srcPos with
  | none => .ok (EINVAL, srcPos)
  | some pos => .ok (0, pos)

/-- The variables of `parse_ipv6`. -/
structure Ipv6State where
  pos : ℕ
  last : ℕ
  comp : Bool
  count : ℕ

/-- The end of a pass of the loop of `parse_ipv6`: the bracket, or a group. -/
def ipv6Group (src : List UInt8) (st : Ipv6State) :
    Exec (Pass Ipv6State (Option Ipv6State)) := do
  let c ← readByte src st.pos
  if c = chr ']' then .ok (.done (some st)) else
  if hlibIsxdigit c then
    let pos ← hexScan src 3 (st.pos + 1)
    .ok (.next { st with pos := pos, last := st.pos, count := st.count + 1 })
  else .ok (.done none)

/-- One pass of the loop of `parse_ipv6`; `none` is the return of `EINVAL`. -/
def ipv6Pass (src : List UInt8) (st : Ipv6State) :
    Exec (Pass Ipv6State (Option Ipv6State)) := do
  if st.comp.toNat + st.count < 8 then
    let c ← readByte src st.pos
    if c = chr ':' then
      let c ← readByte src (st.pos + 1)
      if c = chr ':' then
        if st.comp then .ok (.done none) else
        ipv6Group src { st with pos := st.pos + 2, comp := true }
      else ipv6Group src { st with pos := st.pos + 1 }
    else if c = chr '.' then
      let (code, pos) ← parseIpv4 src st.last
      if code ≠ 0 then .ok (.done none) else
      .ok (.done (some { st with pos := pos, count := st.count + 2 }))
    else ipv6Group src st
  else .ok (.done (some st))

/-- `parse_ipv6`. -/
def parseIpv6 (src : List UInt8) (srcPos : ℕ) : Exec (ℤ × ℕ) := do
  let c ← readByte src srcPos
  if c ≠ chr '[' then .ok (EINVAL, srcPos) else
  match ← loop (ipv6Pass src) 9
    { pos := srcPos + 1, last := srcPos, comp := false, count := 0 } with
  | none => .ok (EINVAL, srcPos)
  | some st =>
      let c ← readByte src st.pos
      if c ≠ chr ']' ∨ (if st.comp then 8 ≤ st.count else st.count < 8) then
        .ok (EINVAL, srcPos)
      else .ok (0, st.pos + 1)

/-- The choice of the host in `uri_parse_segments_switch`: the code, the position behind the
host, and `dest->host_type`. -/
def parseHost (src : List UInt8) (pos : ℕ) (hostType : HostType) :
    Exec (ℤ × ℕ × HostType) := do
  let (code, pos) ← parseIpvf src pos
  if code = 0 then .ok (0, pos, .ipvf) else
  let (code, pos) ← parseIpv6 src pos
  if code = 0 then .ok (0, pos, .ipv6) else
  let (code, pos) ← parseIpv4 src pos
  if code = 0 then .ok (0, pos, .ipv4) else
  let (code, pos) ← parseName src pos
  if code = 0 then .ok (0, pos, .name) else
  .ok (EINVAL, pos, hostType)

/-- `uri_parse_segments_switch` from the host on. -/
def uriHost (src : List UInt8) (last : ℕ) (dest : UriSegments) : Exec (ℤ × UriSegments) := do
  let (code, pos, type) ← parseHost src last dest.hostType
  if code ≠ 0 then .ok (EINVAL, dest) else
  uriPort src pos
    { dest with hostType := type, host := { str := some last, size := pos - last } }

/-- `uri_parse_segments_switch` from the user information on. -/
def uriAuthority (src : List UInt8) (last : ℕ) (dest : UriSegments) :
    Exec (ℤ × UriSegments) := do
  let (code, pos) ← parseUserinfo src last
  if code = 0 then
    uriHost src pos { dest with userinfo := { str := some last, size := pos - last - 1 } }
  else uriHost src pos dest

/-- `uri_parse_segments_switch` behind the scheme. -/
def uriHierPart (src : List UInt8) (last : ℕ) (dest : UriSegments) :
    Exec (ℤ × UriSegments) := do
  let slashes ← andThen ((· == chr '/') <$> readByte src last)
    ((· == chr '/') <$> readByte src (last + 1))
  if slashes then uriAuthority src (last + 2) dest
  else uriPath src last dest

/-- `uri_parse_segments_switch`: the code it returns, and `*dest`. -/
def uriParseSegmentsSwitch (src : List UInt8) : Exec (ℤ × UriSegments) := do
  let dest := UriSegments.zero
  let (code, pos) ← parseScheme src 0
  if code = 0 then
    uriHierPart src pos { dest with scheme := { str := some 0, size := pos - 0 - 1 } }
  else uriHierPart src 0 dest

end Hlibc.Uri.Switch
