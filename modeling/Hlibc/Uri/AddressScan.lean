import Hlibc.Ctype
import Hlibc.Support.Exec

/-!
# `etc/uri`: the scans of addresses

Both parsers of `etc/uri` scan the four numbers of an IPv4 address with the same loop, and
the digits of a group of an IPv6 address with the same tests.  The loops differ in the
test for digits and in what a further digit does to the value in front of it.
-/

set_option autoImplicit false

namespace Hlibc.Uri

section Octets

variable (digit : UInt8 → Bool) (next : ℕ → ℕ) (src : List UInt8)

/-- The digits of one number: the position behind them, or `none` where the function gives
up. -/
def octetScan (pos : ℕ) : Exec (Option ℕ) := do
  let c ← readByte src pos
  if digit c then
    if c = chr '0' then .ok (some (pos + 1))
    else
      let val := 10 * 0 + c.toNat - (chr '0').toNat
      let c ← readByte src (pos + 1)
      if digit c then
        let val := next val + c.toNat - (chr '0').toNat
        let c ← readByte src (pos + 2)
        if digit c then
          let val := next val + c.toNat - (chr '0').toNat
          if val > 255 then .ok none else .ok (some (pos + 3))
        else .ok (some (pos + 2))
      else .ok (some (pos + 1))
  else .ok none

/-- One pass of the loop over the four numbers, from the counter and the position. -/
def octetsPass (st : ℕ × ℕ) : Exec (Pass (ℕ × ℕ) (Option ℕ)) := do
  let (i, pos) := st
  if i < 4 then
    match ← octetScan digit next src pos with
    | none => .ok (.done none)
    | some pos =>
        if i < 3 then
          let c ← readByte src pos
          if c ≠ chr '.' then .ok (.done none) else .ok (.next (i + 1, pos + 1))
        else .ok (.next (i + 1, pos))
  else .ok (.done (some pos))

/-- The four numbers: the position behind them, or `none` where the function gives up. -/
def octetsScan (pos : ℕ) : Exec (Option ℕ) := loop (octetsPass digit next src) 5 (0, pos)

end Octets

/-- At most `n` further hexadecimal digits. -/
def hexScan (src : List UInt8) : ℕ → ℕ → Exec ℕ
  | 0, pos => .ok pos
  | n + 1, pos => do
      let c ← readByte src pos
      if hlibIsxdigit c then hexScan src n (pos + 1) else .ok pos

end Hlibc.Uri
