import Hlibc.Support.Memory

/-!
# Character classes

`isdigit`, `isxdigit` and `isalpha` of the C library, as the ASCII tests, its `tolower` and
`toupper`, and the tables of `hlib_isalpha`, `hlib_isdigit` and `hlib_isxdigit`.
-/

set_option autoImplicit false

namespace Hlibc

/-- What holds of the numbers up to 255 holds of bytes. -/
theorem forall_byte {P : UInt8 → Prop} (h : ∀ n < 256, P (UInt8.ofNat n)) (c : UInt8) : P c := by
  have hc := h c.toNat (UInt8.toNat_lt c)
  rwa [UInt8.ofNat_toNat] at hc

/-- What holds of the entries of a table of 256 holds of the one read for a byte. -/
theorem forall_entry {α : Type*} {table : List α} {P : UInt8 → α → Prop}
    (h : table.length = 256 ∧ ∀ t ∈ table.zipIdx, P (UInt8.ofNat t.2) t.1) (d : α) (c : UInt8) :
    P c (table.getD c.toNat d) := by
  have hlt : c.toNat < table.length := by
    rw [h.1]
    exact UInt8.toNat_lt c
  have hc := h.2 (table[c.toNat], c.toNat)
    (List.mem_zipIdx_iff_getElem?.mpr (List.getElem?_eq_getElem hlt))
  rw [UInt8.ofNat_toNat] at hc
  rwa [List.getD_eq_getElem?_getD, List.getElem?_eq_getElem hlt]

def isdigit (c : UInt8) : Bool := decide (chr '0' ≤ c ∧ c ≤ chr '9')

def isxdigit (c : UInt8) : Bool :=
  isdigit c || decide (chr 'a' ≤ c ∧ c ≤ chr 'f') || decide (chr 'A' ≤ c ∧ c ≤ chr 'F')

def isalpha (c : UInt8) : Bool :=
  decide (chr 'A' ≤ c ∧ c ≤ chr 'Z') || decide (chr 'a' ≤ c ∧ c ≤ chr 'z')

def tolower (c : UInt8) : UInt8 :=
  if chr 'A' ≤ c ∧ c ≤ chr 'Z' then c + (chr 'a' - chr 'A') else c

def toupper (c : UInt8) : UInt8 :=
  if chr 'a' ≤ c ∧ c ≤ chr 'z' then c - (chr 'a' - chr 'A') else c

theorem isxdigit_lt {c : UInt8} (hc : isxdigit c = true) : c.toNat < 128 := by
  have hbounds : ∀ a b : UInt8, a ≤ c ∧ c ≤ b → c.toNat ≤ b.toNat := fun _ _ h => h.2
  rw [isxdigit, isdigit, Bool.or_eq_true, Bool.or_eq_true, decide_eq_true_iff,
    decide_eq_true_iff, decide_eq_true_iff] at hc
  rcases hc with (hc | hc) | hc
  · exact Nat.lt_of_le_of_lt (hbounds _ _ hc) (by decide)
  · exact Nat.lt_of_le_of_lt (hbounds _ _ hc) (by decide)
  · exact Nat.lt_of_le_of_lt (hbounds _ _ hc) (by decide)

set_option maxRecDepth 2000 in
/-- `isalpha_table`. -/
def isalphaTable : List ℕ := [
  0, 0, 0, 0, 0, 0, 0, 0, 0, 0, 0, 0, 0, 0, 0, 0, 0, 0, 0, 0, 0, 0, 0, 0,
  0, 0, 0, 0, 0, 0, 0, 0, 0, 0, 0, 0, 0, 0, 0, 0, 0, 0, 0, 0, 0, 0, 0, 0,
  0, 0, 0, 0, 0, 0, 0, 0, 0, 0, 0, 0, 0, 0, 0, 0, 0, 1, 1, 1, 1, 1, 1, 1,
  1, 1, 1, 1, 1, 1, 1, 1, 1, 1, 1, 1, 1, 1, 1, 1, 1, 1, 1, 0, 0, 0, 0, 0,
  0, 1, 1, 1, 1, 1, 1, 1, 1, 1, 1, 1, 1, 1, 1, 1, 1, 1, 1, 1, 1, 1, 1, 1,
  1, 1, 1, 0, 0, 0, 0, 0, 0, 0, 0, 0, 0, 0, 0, 0, 0, 0, 0, 0, 0, 0, 0, 0,
  0, 0, 0, 0, 0, 0, 0, 0, 0, 0, 0, 0, 0, 0, 0, 0, 0, 0, 0, 0, 0, 0, 0, 0,
  0, 0, 0, 0, 0, 0, 0, 0, 0, 0, 0, 0, 0, 0, 0, 0, 0, 0, 0, 0, 0, 0, 0, 0,
  0, 0, 0, 0, 0, 0, 0, 0, 0, 0, 0, 0, 0, 0, 0, 0, 0, 0, 0, 0, 0, 0, 0, 0,
  0, 0, 0, 0, 0, 0, 0, 0, 0, 0, 0, 0, 0, 0, 0, 0, 0, 0, 0, 0, 0, 0, 0, 0,
  0, 0, 0, 0, 0, 0, 0, 0, 0, 0, 0, 0, 0, 0, 0, 0]

/-- `hlib_isalpha`. -/
def hlibIsalpha (c : UInt8) : Bool := isalphaTable.getD c.toNat 0 != 0

set_option maxRecDepth 2000 in
/-- `isdigit_table`. -/
def isdigitTable : List ℕ := [
  0, 0, 0, 0, 0, 0, 0, 0, 0, 0, 0, 0, 0, 0, 0, 0, 0, 0, 0, 0, 0, 0, 0, 0,
  0, 0, 0, 0, 0, 0, 0, 0, 0, 0, 0, 0, 0, 0, 0, 0, 0, 0, 0, 0, 0, 0, 0, 0,
  1, 1, 1, 1, 1, 1, 1, 1, 1, 1, 0, 0, 0, 0, 0, 0, 0, 0, 0, 0, 0, 0, 0, 0,
  0, 0, 0, 0, 0, 0, 0, 0, 0, 0, 0, 0, 0, 0, 0, 0, 0, 0, 0, 0, 0, 0, 0, 0,
  0, 0, 0, 0, 0, 0, 0, 0, 0, 0, 0, 0, 0, 0, 0, 0, 0, 0, 0, 0, 0, 0, 0, 0,
  0, 0, 0, 0, 0, 0, 0, 0, 0, 0, 0, 0, 0, 0, 0, 0, 0, 0, 0, 0, 0, 0, 0, 0,
  0, 0, 0, 0, 0, 0, 0, 0, 0, 0, 0, 0, 0, 0, 0, 0, 0, 0, 0, 0, 0, 0, 0, 0,
  0, 0, 0, 0, 0, 0, 0, 0, 0, 0, 0, 0, 0, 0, 0, 0, 0, 0, 0, 0, 0, 0, 0, 0,
  0, 0, 0, 0, 0, 0, 0, 0, 0, 0, 0, 0, 0, 0, 0, 0, 0, 0, 0, 0, 0, 0, 0, 0,
  0, 0, 0, 0, 0, 0, 0, 0, 0, 0, 0, 0, 0, 0, 0, 0, 0, 0, 0, 0, 0, 0, 0, 0,
  0, 0, 0, 0, 0, 0, 0, 0, 0, 0, 0, 0, 0, 0, 0, 0]

/-- `hlib_isdigit`. -/
def hlibIsdigit (c : UInt8) : Bool := isdigitTable.getD c.toNat 0 != 0

set_option maxRecDepth 2000 in
/-- `isxdigit_table`. -/
def isxdigitTable : List ℕ := [
  0, 0, 0, 0, 0, 0, 0, 0, 0, 0, 0, 0, 0, 0, 0, 0, 0, 0, 0, 0, 0, 0, 0, 0,
  0, 0, 0, 0, 0, 0, 0, 0, 0, 0, 0, 0, 0, 0, 0, 0, 0, 0, 0, 0, 0, 0, 0, 0,
  1, 1, 1, 1, 1, 1, 1, 1, 1, 1, 0, 0, 0, 0, 0, 0, 0, 1, 1, 1, 1, 1, 1, 0,
  0, 0, 0, 0, 0, 0, 0, 0, 0, 0, 0, 0, 0, 0, 0, 0, 0, 0, 0, 0, 0, 0, 0, 0,
  0, 1, 1, 1, 1, 1, 1, 0, 0, 0, 0, 0, 0, 0, 0, 0, 0, 0, 0, 0, 0, 0, 0, 0,
  0, 0, 0, 0, 0, 0, 0, 0, 0, 0, 0, 0, 0, 0, 0, 0, 0, 0, 0, 0, 0, 0, 0, 0,
  0, 0, 0, 0, 0, 0, 0, 0, 0, 0, 0, 0, 0, 0, 0, 0, 0, 0, 0, 0, 0, 0, 0, 0,
  0, 0, 0, 0, 0, 0, 0, 0, 0, 0, 0, 0, 0, 0, 0, 0, 0, 0, 0, 0, 0, 0, 0, 0,
  0, 0, 0, 0, 0, 0, 0, 0, 0, 0, 0, 0, 0, 0, 0, 0, 0, 0, 0, 0, 0, 0, 0, 0,
  0, 0, 0, 0, 0, 0, 0, 0, 0, 0, 0, 0, 0, 0, 0, 0, 0, 0, 0, 0, 0, 0, 0, 0,
  0, 0, 0, 0, 0, 0, 0, 0, 0, 0, 0, 0, 0, 0, 0, 0]

/-- `hlib_isxdigit`. -/
def hlibIsxdigit (c : UInt8) : Bool := isxdigitTable.getD c.toNat 0 != 0

theorem hlibIsdigit_eq (c : UInt8) : hlibIsdigit c = isdigit c :=
  forall_entry (P := fun c n => (n != 0) = isdigit c) (by decide +kernel) 0 c

theorem hlibIsxdigit_eq (c : UInt8) : hlibIsxdigit c = isxdigit c :=
  forall_entry (P := fun c n => (n != 0) = isxdigit c) (by decide +kernel) 0 c

end Hlibc
