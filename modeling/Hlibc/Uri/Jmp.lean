import Hlibc.Uri.AddressScan
import Hlibc.Uri.Parse
import Mathlib.Algebra.Group.Int.Defs

/-!
# `etc/uri/uri_jmp.c`

`uri_parse_segments_jmp` is one function of labels and jumps.  A state is a label with the
values of the variables there, and a step is what stands between a label and the next
jump.
-/

set_option autoImplicit false

namespace Hlibc.Uri.Jmp

/-! ## Case lists -/

/-- `ALPHA_UPPER`. -/
def alphaUpper (c : UInt8) : Bool := (ascii "ABCDEFGHIJKLMNOPQRSTUVWXYZ").contains c

/-- `ALPHA_LOWER`. -/
def alphaLower (c : UInt8) : Bool := (ascii "abcdefghijklmnopqrstuvwxyz").contains c

/-- `ALPHA`. -/
def alpha (c : UInt8) : Bool := alphaUpper c || alphaLower c

/-- `DIGIT`. -/
def digit (c : UInt8) : Bool := (ascii "0123456789").contains c

/-- `HEXDIGIT`. -/
def hexdigit (c : UInt8) : Bool := (ascii "0123456789abcdefABCDEF").contains c

/-- `SUBDELIMS`. -/
def subdelims (c : UInt8) : Bool := (ascii "!$&'()*+,;=").contains c

/-- `UNRESERVED`. -/
def unreserved (c : UInt8) : Bool := alpha c || digit c || (ascii "-._~").contains c

/-- `PCHAR`. -/
def pchar (c : UInt8) : Bool := subdelims c || unreserved c || (ascii ":@").contains c

/-! ## Helpers -/

/-- `pct_enc_move`: what it returns, and `*pos`. -/
def pctEncMove (src : List UInt8) (pos : ℕ) : Exec (Bool × ℕ) := do
  let c ← readByte src pos
  if hexdigit c then
    let c ← readByte src (pos + 1)
    .ok (hexdigit c, pos + 2)
  else .ok (false, pos + 1)

/-- `parse_ipv4_move`: what it returns, and `*src_pos`. -/
def parseIpv4Move (src : List UInt8) (srcPos : ℕ) : Exec (Bool × ℕ) := do
  match ← octetsScan hlibIsdigit (10 + ·) src srcPos with
  | none => .ok (false, srcPos)
  | some pos => .ok (true, pos)

/-- The variables of `parse_ipv6_move` at `segment`. -/
structure SegmentState where
  pos : ℕ
  count : ℕ
  seen : Bool

/-- What stands between `segment` and the next jump; `none` is the return of `false`. -/
def segmentPass (src : List UInt8) (st : SegmentState) :
    Exec (Pass SegmentState (Option SegmentState)) := do
  let last := st.pos
  let c ← readByte src st.pos
  if hlibIsxdigit c then
    let pos ← hexScan src 3 (st.pos + 1)
    let c ← readByte src pos
    if c = chr ':' then
      let c ← readByte src (pos + 1)
      if c = chr ':' then
        if st.seen then .ok (.done none) else
        if st.count > 8 then .ok (.done none) else
        .ok (.next { pos := pos + 2, count := st.count, seen := true })
      else
        if st.count + 1 > 8 then .ok (.done none) else
        .ok (.next { st with pos := pos + 1, count := st.count + 1 })
    else if c = chr '.' then
      let (moved, pos) ← parseIpv4Move src last
      if moved then
        let c ← readByte src pos
        if c ≠ chr ']' then .ok (.done none) else
        .ok (.done (some { st with pos := pos + 1, count := st.count + 2 }))
      else .ok (.done none)
    else if c = chr ']' then
      .ok (.done (some { st with pos := pos + 1, count := st.count + 1 }))
    else .ok (.done none)
  else .ok (.done none)

/-- `parse_ipv6_move` from `segment` on. -/
def segments (src : List UInt8) (srcPos : ℕ) (st : SegmentState) : Exec (Bool × ℕ) := do
  match ← loop (segmentPass src) (src.length + 1) st with
  | none => .ok (false, srcPos)
  | some st =>
      if (if st.seen then st.count ≥ 8 else st.count ≠ 8) then .ok (false, srcPos)
      else .ok (true, st.pos)

/-- `parse_ipv6_move`.  Where no bracket stands it returns `EINVAL`, which is true. -/
def parseIpv6Move (src : List UInt8) (srcPos : ℕ) : Exec (Bool × ℕ) := do
  let c ← readByte src srcPos
  if c ≠ chr '[' then .ok (true, srcPos) else
  let c ← readByte src (srcPos + 1)
  if c = chr ':' then
    let c ← readByte src (srcPos + 2)
    if c ≠ chr ':' then .ok (false, srcPos) else
    segments src srcPos { pos := srcPos + 3, count := 0, seen := true }
  else segments src srcPos { pos := srcPos + 2, count := 0, seen := false }

/-- `(size_t)(p - q)`. -/
def ptrDiff (p q : ℕ) : ℕ := (((p : ℤ) - q) % 2 ^ 64).toNat

/-! ## `uri_parse_segments_jmp` -/

/-- The labels, but for `error` and `end`. -/
inductive Label where
  | scheme
  | schemeLoop
  | authority
  | userinfo
  | host
  | hostIpvf
  | hostIpvfHex
  | hostIpvfHexLoop
  | hostIpvfTail
  | hostIpvfTailLoop
  | hostIpv6
  | hostIpv4
  | hostName
  | hostEnd
  | port
  | path
  | pathNoscheme
  | pathSegments
  | pathEmpty
  | query
  | queryEnd
  | fragment
  deriving DecidableEq

/-- The variables of `uri_parse_segments_jmp` at a label. -/
structure State where
  label : Label
  pos : ℕ
  last : ℕ
  dest : UriSegments

/-- `goto label;`. -/
def State.goto (st : State) (label : Label) (pos : ℕ) :
    Exec (Pass State (ℤ × UriSegments)) :=
  .ok (.next { st with label := label, pos := pos })

/-- `goto error;`. -/
def State.error (st : State) : Exec (Pass State (ℤ × UriSegments)) := .ok (.done (EINVAL, st.dest))

/-- `goto end;`. -/
def State.finish (st : State) : Exec (Pass State (ℤ × UriSegments)) := .ok (.done (0, st.dest))

/-- `if (pct_enc_move(&pos)) goto label; else goto error;` behind the percent sign. -/
def State.gotoPct (src : List UInt8) (st : State) (label : Label) :
    Exec (Pass State (ℤ × UriSegments)) := do
  let (moved, pos) ← pctEncMove src (st.pos + 1)
  if moved then st.goto label pos else st.error

/-- What stands between a label and the next jump. -/
def step (src : List UInt8) (st : State) : Exec (Pass State (ℤ × UriSegments)) := do
  let { label, pos, last, dest } := st
  match label with
  | .scheme =>
      let c ← readByte src pos
      if alpha c then st.goto .schemeLoop (pos + 1)
      else st.goto .authority last
  | .schemeLoop =>
      let c ← readByte src pos
      if alpha c || digit c || c == chr '+' || c == chr '-' || c == chr '.' then
        st.goto .schemeLoop (pos + 1)
      else if c = chr ':' then
        State.goto { st with
          dest := { dest with scheme := { str := some last, size := pos + 1 - last - 1 } }
          last := pos + 1 } .authority (pos + 1)
      else st.goto .authority last
  | .authority =>
      let slashes ← andThen ((· == chr '/') <$> readByte src pos)
        ((· == chr '/') <$> readByte src (pos + 1))
      if slashes then State.goto { st with last := pos + 2 } .userinfo (pos + 2)
      else st.goto .path last
  | .userinfo =>
      let c ← readByte src pos
      if unreserved c || subdelims c || c == chr ':' then st.goto .userinfo (pos + 1)
      else if c = chr '%' then st.gotoPct src .userinfo
      else if c = chr '@' then
        State.goto { st with
          dest := { dest with userinfo := { str := some last, size := pos + 1 - last - 1 } }
          last := pos + 1 } .host (pos + 1)
      else st.goto .host last
  | .host =>
      let c ← readByte src pos
      if c = chr '[' then st.goto .hostIpvf (pos + 1)
      else st.goto .hostIpv4 (pos + 1)
  | .hostIpvf =>
      let c ← readByte src pos
      if c = chr 'v' then st.goto .hostIpvfHex (pos + 1)
      else st.goto .hostIpv6 last
  | .hostIpvfHex =>
      let c ← readByte src pos
      if hexdigit c then st.goto .hostIpvfHexLoop (pos + 1)
      else st.error
  | .hostIpvfHexLoop =>
      let c ← readByte src pos
      if hexdigit c then st.goto .hostIpvfHexLoop (pos + 1)
      else if c = chr '.' then st.goto .hostIpvfTail (pos + 1)
      else st.error
  | .hostIpvfTail =>
      let c ← readByte src pos
      if unreserved c || subdelims c || c == chr ':' then st.goto .hostIpvfTailLoop (pos + 1)
      else st.error
  | .hostIpvfTailLoop =>
      let c ← readByte src pos
      if unreserved c || subdelims c || c == chr ':' then st.goto .hostIpvfTailLoop (pos + 1)
      else if c = chr ']' then
        State.goto { st with dest := { dest with hostType := .ipvf } } .hostEnd (pos + 1)
      else st.error
  | .hostIpv6 =>
      let (moved, pos) ← parseIpv6Move src pos
      if moved then State.goto { st with dest := { dest with hostType := .ipv6 } } .hostEnd pos
      else st.error
  | .hostIpv4 =>
      let (moved, pos) ← parseIpv4Move src pos
      if moved then
        let c ← readByte src pos
        if c = chr '/' ∨ c = chr ':' ∨ c = chr '?' ∨ c = chr '#' ∨ c = 0 then
          State.goto { st with dest := { dest with hostType := .ipv4 } } .hostEnd pos
        else st.goto .hostName pos
      else st.goto .hostName pos
  | .hostName =>
      let c ← readByte src pos
      if unreserved c || subdelims c then st.goto .hostName (pos + 1)
      else if c = chr '%' then st.gotoPct src .hostName
      else State.goto { st with dest := { dest with hostType := .name } } .hostEnd pos
  | .hostEnd =>
      let st := { st with dest := { dest with host := { str := some last, size := pos - last } } }
      let c ← readByte src pos
      if c = chr ':' then State.goto { st with last := pos + 1 } .port (pos + 1)
      else State.goto { st with last := pos } .path pos
  | .port =>
      let c ← readByte src pos
      if digit c then st.goto .port (pos + 1)
      else
        State.goto { st with
          dest := { dest with port := { str := some last, size := pos + 1 - last - 1 } }
          last := pos } .path pos
  | .path =>
      if dest.host.str.isSome then
        let c ← readByte src pos
        if c = chr '/' then st.goto .pathSegments pos
        else st.goto .pathEmpty pos
      else
        let slashes ← andThen ((· == chr '/') <$> readByte src pos)
          ((· == chr '/') <$> readByte src (pos + 1))
        if slashes then st.error
        else if dest.scheme.str.isSome then st.goto .pathSegments pos
        else st.goto .pathNoscheme pos
  | .pathNoscheme =>
      let c ← readByte src pos
      if unreserved c || subdelims c || c == chr '@' then st.goto .pathSegments (pos + 1)
      else if c = chr '%' then st.gotoPct src .pathSegments
      else if c = chr '/' then st.goto .pathSegments (pos + 1)
      else st.goto .pathEmpty pos
  | .pathSegments =>
      let c ← readByte src pos
      if pchar c || c == chr '/' then st.goto .pathSegments (pos + 1)
      else if c = chr '%' then st.gotoPct src .pathSegments
      else st.goto .pathEmpty pos
  | .pathEmpty =>
      let st := { st with
        dest := { dest with path := { str := some last, size := pos - last } }
        last := pos + 1 }
      let c ← readByte src pos
      if c = chr '#' then st.goto .fragment (pos + 1)
      else if c = chr '?' then st.goto .query (pos + 1)
      else if c = 0 then st.finish
      else st.error
  | .query =>
      let c ← readByte src pos
      if pchar c || c == chr '/' || c == chr '?' then st.goto .query (pos + 1)
      else if c = chr '%' then st.gotoPct src .query
      else st.goto .queryEnd pos
  | .queryEnd =>
      let st := { st with
        dest := { dest with query := { str := some last, size := pos - last } }
        last := pos + 1 }
      let c ← readByte src pos
      if c = chr '#' then st.goto .fragment (pos + 1)
      else if c = 0 then st.finish
      else st.error
  | .fragment =>
      let c ← readByte src pos
      if pchar c || c == chr '/' || c == chr '?' then st.goto .fragment (pos + 1)
      else if c = chr '%' then st.gotoPct src .fragment
      else if c = 0 then
        State.finish { st with
          dest := { dest with
            fragment := { str := some last, size := ptrDiff last (pos + 1) } } }
      else st.error

/-- `uri_parse_segments_jmp`: the code it returns, and `*dest`. -/
def uriParseSegmentsJmp (src : List UInt8) : Exec (ℤ × UriSegments) :=
  loop (step src) (24 * (src.length + 1))
    { label := .scheme, pos := 0, last := 0, dest := .zero }

end Hlibc.Uri.Jmp
