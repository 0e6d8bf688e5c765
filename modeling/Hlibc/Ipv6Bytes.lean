import Hlibc.Ipv6Address

/-!
# The bytes that `ipv6_to_bin` stores

What an address denotes, and what `ipv6_to_bin` leaves in an object of sixteen
bytes.  A group is stored by two bytes that overlap in one digit, and for a `::`
as many bytes are moved as are missing, not as many as stand behind it.
-/

set_option autoImplicit false

namespace Hlibc.Inet

/-! ## Bounds -/

/-- On a string, `ipv6_to_bin` stays inside it and inside the sixteen bytes it writes to,
unless it reads a `::` with too few bytes behind it; a write is then the only fault. -/
theorem ipv6ToBin_inBounds_iff {s dest : List UInt8} (hs : 0 ∉ s) (hdest : dest.length = 16) :
    (Exec.Returns (ipv6ToBin (s ++ [0]) dest) ↔
        ∀ gs c vs, Accepts s gs c vs → Fits c (2 * gs.length + vs.length) 16) ∧
      ∀ e, ipv6ToBin (s ++ [0]) dest = .error e → e = .write := by
  have hsize : 16 ≤ dest.length := Nat.le_of_eq hdest.symm
  constructor
  · have hiff := ipv6ToBin_ok_iff hs [] hsize
    rw [hdest] at hiff
    exact hiff
  · intro e herror
    rcases ipv6ToBin_string hs [] hsize with ⟨out, hinvalid⟩ | ⟨gs, c, vs, haccepts⟩
    · rw [hinvalid] at herror
      cases herror
    · have hgives := haccepts.gives [] hsize
      by_cases hfits : Fits c (2 * gs.length + vs.length) dest.length
      · obtain ⟨out, hout⟩ := hgives.fits hfits
        rw [hout] at herror
        cases herror
      · rw [hgives.overrun hfits] at herror
        exact (Except.error.inj herror).symm

theorem ipv6ToBin_inBounds_eight :
    let s := ascii "1:2:3:4:5:6:7:8"
    (Exec.Returns (ipv6ToBin (s ++ [0]) (List.replicate 16 0)) ↔
        ∀ gs c vs, Accepts s gs c vs → Fits c (2 * gs.length + vs.length) 16) ∧
      ∀ e, ipv6ToBin (s ++ [0]) (List.replicate 16 0) = .error e → e = .write :=
  ipv6ToBin_inBounds_iff (by decide) (by decide)

/-- With one group behind the `::`, fourteen bytes are moved past the object. -/
theorem ipv6ToBin_overruns_loopback :
    ¬ ∀ s dest : List UInt8, 0 ∉ s → dest.length = 16 →
      Exec.Returns (ipv6ToBin (s ++ [0]) dest) := by
  intro h
  have hwrite : ipv6ToBin (ascii "::1" ++ [0]) (List.replicate 16 0) = .error .write := by
    decide +kernel
  have hreturns := h (ascii "::1") (List.replicate 16 0) (by decide) (by decide)
  rw [hwrite] at hreturns
  exact Exec.not_returns_error _ hreturns

/-! ## Addresses and what they denote -/

/-- The two bytes of the value of a group. -/
def valueBytes (g : List UInt8) : List UInt8 :=
  [UInt8.ofNat (hexValue 0 g / 256), UInt8.ofNat (hexValue 0 g % 256)]

/-- The parts that colons separate: groups, and a dotted quad behind them. -/
def parts (gs : List (List UInt8)) (quad : List UInt8) : List (List UInt8) :=
  gs ++ if quad = [] then [] else [dotted quad]

/-- An address: the groups in front of the `::`, those behind it where there is one, and
the numbers of a dotted quad at the end. -/
structure Address where
  front : List (List UInt8)
  back : Option (List (List UInt8))
  quad : List UInt8
  isGroup : ∀ g ∈ front ++ back.getD [], IsGroup g
  length_quad : quad = [] ∨ quad.length = 4
  complete : match back with
    | none => 2 * front.length + quad.length = 16
    | some back => 2 * front.length + 2 * back.length + quad.length < 16

namespace Address

variable (a : Address)

def text : List UInt8 :=
  match a.back with
  | none => joined (parts a.front a.quad)
  | some back => joined a.front ++ chr ':' :: chr ':' :: joined (parts back a.quad)

def groups : List (List UInt8) := a.front ++ a.back.getD []

/-- The number of groups in front of the `::`. -/
def gap : Option ℕ := a.back.map fun _ => a.front.length

/-- The number of bytes that are written out. -/
def count : ℕ := 2 * a.groups.length + a.quad.length

/-- The sixteen bytes of an address: zeros stand for the `::`. -/
def bytes : List UInt8 :=
  match a.back with
  | none => a.front.flatMap valueBytes ++ a.quad
  | some back => a.front.flatMap valueBytes ++
      (List.replicate (16 - a.count) 0 ++ (back.flatMap valueBytes ++ a.quad))

/-- A dotted quad may stand where it does. -/
def QuadTaken : Prop :=
  a.quad = [] ∨ Mapped a.groups ∧ a.gap ≠ some a.groups.length

/-- `ipv6_to_bin` returns 0 on the text. -/
def Taken : Prop := a.QuadTaken ∧ Fits a.gap a.count 16

end Address

/-- The first three of four digits are equal. -/
def HighDigitsEqual (g : List UInt8) : Prop :=
  hexValue 0 g / 4096 = hexValue 0 g / 256 % 16 ∧
    hexValue 0 g / 256 % 16 = hexValue 0 g / 16 % 16

/-- If `ipv6_to_bin` takes the address, the first three digits of every group are equal, and
as many bytes stand behind the `::` as are missing. -/
def Address.Meets (a : Address) : Prop :=
  a.Taken → (∀ g ∈ a.groups, HighDigitsEqual g) ∧ ∀ k ∈ a.gap, a.count - 2 * k = 16 - a.count

/-! ## Groups -/

/-- Digits behind a number of `k` digits make one of more. -/
theorem hexValue_lt {g : List UInt8} (hg : ∀ c ∈ g, isxdigit c = true) {v k : ℕ}
    (hv : v < 16 ^ k) : hexValue v g < 16 ^ (k + g.length) := by
  induction g generalizing v k with
  | nil => exact hv
  | cons c g ih =>
      obtain ⟨hc, hg⟩ := List.forall_mem_cons.mp hg
      have hdigit := hexVal_lt c
      have hnext : 16 * v + (hexVal c).toNat < 16 ^ (k + 1) := by
        rw [pow_succ]
        omega
      have hrest := ih hg hnext
      rw [List.length_cons, Nat.add_comm g.length 1, ← Nat.add_assoc]
      exact hrest

theorem IsGroup.hexValue_lt {g : List UInt8} (hg : IsGroup g) : hexValue 0 g < 65536 := by
  have hvalue : hexValue 0 g < 16 ^ (0 + g.length) := Inet.hexValue_lt hg.digits (by decide)
  have hfour : 16 ^ (0 + g.length) ≤ 16 ^ 4 :=
    Nat.pow_le_pow_right (by decide) (by rw [Nat.zero_add]; exact hg.length_le)
  exact Nat.lt_of_lt_of_le hvalue hfour

/-- A group is stored as its value if its first three digits are equal. -/
theorem groupBytes_eq_iff {g : List UInt8} (hg : IsGroup g) :
    groupBytes g = valueBytes g ↔ HighDigitsEqual g := by
  have hlt := hg.hexValue_lt
  have hshift : hexValue 0 g >>> 4 &&& 0xFF = hexValue 0 g / 16 % 256 := by
    rw [Nat.shiftRight_eq_div_pow]
    exact Nat.and_two_pow_sub_one_eq_mod _ 8
  have hlow : hexValue 0 g &&& 0xFF = hexValue 0 g % 256 :=
    Nat.and_two_pow_sub_one_eq_mod _ 8
  have hbyte : UInt8.ofNat (hexValue 0 g / 16 % 256) = UInt8.ofNat (hexValue 0 g / 256) ↔
      hexValue 0 g / 16 % 256 = hexValue 0 g / 256 := by
    rw [← UInt8.toNat_inj, UInt8.toNat_ofNat', UInt8.toNat_ofNat']
    omega
  have hhigh : hexValue 0 g / 256 = 16 * (hexValue 0 g / 4096) + hexValue 0 g / 256 % 16 := by
    omega
  have hmiddle : hexValue 0 g / 16 % 256 =
      16 * (hexValue 0 g / 256 % 16) + hexValue 0 g / 16 % 16 := by
    omega
  rw [groupBytes, valueBytes, hshift, hlow, List.cons.injEq, and_iff_left rfl, hbyte,
    HighDigitsEqual]
  omega

/-- The bytes stored for groups are those of their values exactly if each group's are. -/
theorem flatMap_groupBytes_eq_iff {gs : List (List UInt8)} (hgs : ∀ g ∈ gs, IsGroup g) :
    gs.flatMap groupBytes = gs.flatMap valueBytes ↔ ∀ g ∈ gs, HighDigitsEqual g := by
  induction gs with
  | nil => simp
  | cons g gs ih =>
      obtain ⟨hg, hgs⟩ := List.forall_mem_cons.mp hgs
      rw [List.flatMap_cons, List.flatMap_cons, List.forall_mem_cons, ← ih hgs,
        ← groupBytes_eq_iff hg]
      exact ⟨fun h => List.append_inj h rfl, fun ⟨hfirst, hrest⟩ => by rw [hfirst, hrest]⟩

theorem length_flatMap_valueBytes (gs : List (List UInt8)) :
    (gs.flatMap valueBytes).length = 2 * gs.length := by
  induction gs with
  | nil => rfl
  | cons g gs ih =>
      rw [List.flatMap_cons, List.length_append, ih, List.length_cons]
      simp only [valueBytes, List.length_cons, List.length_nil]
      omega

/-! ## Addresses are read -/

theorem joined_parts {gs : List (List UInt8)} {quad : List UInt8} (hgs : gs ≠ [])
    (hquad : quad ≠ []) : joined (parts gs quad) = joined gs ++ ([chr ':'] ++ dotted quad) := by
  rw [parts, if_neg hquad, joined_concat _ hgs]
  rfl

theorem parts_nil (gs : List (List UInt8)) : parts gs [] = gs := by
  rw [parts, if_pos rfl, List.append_nil]

namespace Address

variable {a : Address}

theorem complete_gap (a : Address) : Complete a.gap a.count := by
  obtain ⟨front, back, quad, hgroups, hquad, hcomplete⟩ := a
  cases back with
  | none =>
      simp only [Complete, gap, count, groups, Option.map_none, Option.isSome_none,
        Bool.false_eq_true, if_false, Option.getD_none, List.append_nil]
      exact Nat.le_of_eq hcomplete.symm
  | some back =>
      simp only [Complete, gap, count, groups, Option.map_some, Option.isSome_some, if_true,
        Option.getD_some, List.length_append]
      simp only at hcomplete
      omega

/-- Without a dotted quad, an address is accepted. -/
theorem accepts_of_nil (hquad : a.quad = []) : Accepts a.text a.groups a.gap a.quad := by
  refine ⟨?_, a.complete_gap⟩
  obtain ⟨front, back, quad, hgroups, hfour, hcomplete⟩ := a
  change quad = [] at hquad
  subst hquad
  cases back with
  | none =>
      simp only [Option.getD_none, List.append_nil] at hgroups
      simp only [List.length_nil, Nat.add_zero] at hcomplete
      have hreads := reads_joined hgroups (by omega)
      simp only [text, groups, gap, parts_nil, Option.getD_none, List.append_nil, Option.map_none]
      exact .groups hreads
  | some back =>
      simp only [List.length_nil, Nat.add_zero] at hcomplete
      simp only [Option.getD_some] at hgroups
      have hfront : ∀ g ∈ front, IsGroup g := fun g hg => hgroups g (List.mem_append_left _ hg)
      simp only [text, groups, gap, parts_nil, Option.getD_some, Option.map_some]
      cases back with
      | nil =>
          rw [List.append_nil]
          simp only [List.length_nil, Nat.mul_zero, Nat.add_zero] at hcomplete
          exact .double (reads_joined hfront (by omega)) (not_full_iff.mpr (by simp; omega))
      | cons g back =>
          exact .groups (reads_joined_double hfront
            (fun l hl => hgroups l (List.mem_append_right _ hl)) (by omega))

/-- The groups in front of a dotted quad, and what separates it from them. -/
theorem exists_reads (hquad : a.quad ≠ []) :
    ∃ t c sep, Reads a.groups c t ∧ ¬ Full a.groups c ∧ Separates a.groups c sep a.gap ∧
      a.text = t ++ (sep ++ dotted a.quad) := by
  obtain ⟨front, back, quad, hgroups, hfour, hcomplete⟩ := a
  replace hfour : quad.length = 4 := hfour.resolve_left hquad
  simp only at hquad
  cases back with
  | none =>
      simp only [hfour] at hcomplete
      simp only [Option.getD_none, List.append_nil] at hgroups
      have hne : front ≠ [] := by
        rintro rfl
        simp at hcomplete
      simp only [text, groups, gap, Option.getD_none, List.append_nil, Option.map_none]
      exact ⟨joined front, none, [chr ':'], reads_joined hgroups (by omega),
        not_full_iff.mpr (by simp; omega), .colon hne none, joined_parts hne hquad⟩
  | some back =>
      simp only [hfour] at hcomplete
      simp only [Option.getD_some] at hgroups
      have hfront : ∀ g ∈ front, IsGroup g := fun g hg => hgroups g (List.mem_append_left _ hg)
      simp only [text, groups, gap, Option.getD_some, Option.map_some]
      cases back with
      | nil =>
          rw [List.append_nil]
          simp only [List.length_nil, Nat.mul_zero, Nat.add_zero] at hcomplete
          refine ⟨joined front, none, [chr ':', chr ':'], reads_joined hfront (by omega),
            not_full_iff.mpr (by simp; omega), .double, ?_⟩
          rw [parts, if_neg hquad]
          simp [joined]
      | cons g back =>
          refine ⟨_, some front.length, [chr ':'], reads_joined_double hfront
            (fun l hl => hgroups l (List.mem_append_right _ hl)) (by omega),
            not_full_iff.mpr ?_, .colon (by simp) _, ?_⟩
          · simp only [List.length_append, Option.isSome_some, if_true]
            omega
          · rw [joined_parts (List.cons_ne_nil g back) hquad]
            simp

end Address

/-- Nothing but a `::` right in front changes the place of the `::`. -/
theorem Separates.eq_of_ne {gs : List (List UInt8)} {c c' : Option ℕ} {sep : List UInt8}
    (h : Separates gs c sep c') (hne : c' ≠ some gs.length) : c' = c := by
  cases h with
  | start => rfl
  | colon => rfl
  | missing => rfl
  | double => exact absurd rfl hne

/-- An address whose dotted quad may stand where it does is accepted. -/
theorem Address.QuadTaken.accepts {a : Address} (h : a.QuadTaken) :
    Accepts a.text a.groups a.gap a.quad := by
  by_cases hquad : a.quad = []
  · exact a.accepts_of_nil hquad
  · obtain ⟨hmapped, hbehind⟩ := h.resolve_left hquad
    obtain ⟨t, c, sep, hreads, hroom, hsep, htext⟩ := a.exists_reads hquad
    have hgap := hsep.eq_of_ne hbehind
    rw [hgap] at hsep
    refine ⟨?_, a.complete_gap⟩
    rw [htext, hgap]
    exact .quad hreads ⟨hroom, hsep, hmapped⟩ (a.length_quad.resolve_left hquad)

theorem Address.refused {a : Address} (h : ¬ a.QuadTaken) (tail : List UInt8)
    {dest : List UInt8} (hdest : 16 ≤ dest.length) :
    ∃ out, ipv6ToBin (a.text ++ 0 :: tail) dest = .ok (EINVAL, out) := by
  obtain ⟨hquad, hmapped⟩ := not_or.mp h
  obtain ⟨t, c, sep, hreads, hroom, hsep, htext⟩ := a.exists_reads hquad
  obtain ⟨v, w, vs, hvs⟩ : ∃ v w vs, a.quad = v :: w :: vs := by
    match hfour : a.quad, a.length_quad.resolve_left hquad with
    | v :: w :: vs, _ => exact ⟨v, w, vs, rfl⟩
  obtain ⟨hgroup, hshort⟩ := decimal_isGroup v
  have hsrc : a.text ++ 0 :: tail =
      t ++ (sep ++ (decimal v ++ chr '.' :: (dotted (w :: vs) ++ 0 :: tail))) := by
    rw [htext, hvs, dotted]
    simp
  have hmem : 0 ∈ a.text ++ 0 :: tail := by simp
  have hfirst : ∀ l, a.text ++ 0 :: tail = chr ':' :: l → ∃ l', l = chr ':' :: l' := by
    intro l hl
    have hfront := (hreads.group hroom hsep hgroup).front (by simp)
    refine (hfront.append (chr '.' :: (dotted (w :: vs) ++ 0 :: tail))).first ?_
    rw [← hl, hsrc]
    simp
  have hlen := hreads.length_le_eight
  obtain ⟨budget, hbudget⟩ : ∃ budget, 9 = a.groups.length + (budget + 1) :=
    ⟨8 - a.groups.length, by omega⟩
  obtain ⟨d, g, hdg, hd⟩ := hgroup.exists_cons
  have hdrop : (a.text ++ 0 :: tail).drop t.length =
      sep ++ (decimal v ++ chr '.' :: (dotted (w :: vs) ++ 0 :: tail)) := by
    rw [hsrc, List.drop_left]
  have hpass : ipv6ToBinPass (a.text ++ 0 :: tail) (stateAt dest a.groups c t.length) =
      .ok (.done (.invalid (stateAt dest a.groups a.gap (t.length + sep.length)).bin)) := by
    rw [ipv6ToBinPass_separates hroom hsep (by rw [hdrop, hdg]; rfl) hd,
      ipv6Digits_dot hgroup (drop_of_append hdrop) hshort]
    rcases ipv6Mapped_eq (a.text ++ 0 :: tail) dest a.groups a.gap (t.length + sep.length) with
      ⟨-, htaken⟩ | ⟨heq, -⟩
    · exact absurd htaken hmapped
    · exact heq
  rw [ipv6ToBin_eq (Or.inl hmem) hfirst, hbudget,
    hreads.run hdest hsrc (fun l hl => hsep.ends hl _), loop_done hpass]
  exact ⟨_, rfl⟩

/-! ## What is left in the object -/

/-- The bytes behind the `::` are moved: as many of them as are missing, `d.length`. -/
theorem ipv6Expand_moves {src f b d : List UInt8} {st : Ipv6State}
    (hend : st.mapped = true ∨ readByte src st.pos = .ok 0) (hcomp : st.comp = (f.length : ℕ))
    (hcount : st.count = f.length + b.length) (hbin : st.bin = f ++ (b ++ d))
    (hmissing : d.length = 16 - st.count) (hlt : st.count < 16) (hfits : d.length ≤ b.length) :
    ipv6Expand src (.left st) =
      .ok (0, f ++ (List.replicate d.length 0 ++
        (b.take d.length ++ (b.drop d.length ++ d).drop d.length))) := by
  have hcomp' : -1 < st.comp := by
    rw [hcomp]
    omega
  have hmoved : (b.take d.length).length = d.length := List.length_take_of_le hfits
  have hread : readBytes (f ++ (b ++ d)) f.length d.length = .ok (b.take d.length) := by
    rw [readBytes_of_le (by simp only [List.length_append]; omega), List.drop_left,
      List.take_append_of_le_length hfits]
  have hwrite : writeBytes (f ++ (b ++ d)) (f.length + d.length) (b.take d.length) =
      .ok (f ++ (b.take d.length ++
        (b.take d.length ++ (b.drop d.length ++ d).drop d.length))) := by
    have hsplit : f ++ (b ++ d) = f ++ b.take d.length ++ (b.drop d.length ++ d) := by
      rw [List.append_assoc, ← List.append_assoc (b.take d.length), List.take_append_drop]
    rw [hsplit, writeBytes_append (by rw [List.length_append, hmoved])
      (by rw [hmoved, List.length_append]; omega), hmoved]
    simp only [List.append_assoc]
  have hzero : memzero (f ++ (b.take d.length ++
      (b.take d.length ++ (b.drop d.length ++ d).drop d.length))) f.length d.length =
        .ok (f ++ (List.replicate d.length 0 ++
          (b.take d.length ++ (b.drop d.length ++ d).drop d.length))) := by
    rw [memzero, writeBytes_append rfl (by
      rw [List.length_replicate, List.length_append, hmoved]
      omega), List.length_replicate, List.append_assoc, List.drop_left' hmoved]
  rw [ipv6Expand_end hend, if_pos hcomp', if_neg (Nat.not_le.mpr hlt), hcomp, Int.toNat_natCast,
    ← hmissing, hbin, hread, Exec.ok_bind, hwrite, Exec.ok_bind, hzero, Exec.ok_bind]

namespace Address

variable {a : Address} {dest : List UInt8}

/-- What stands in the object afterwards, where `d` is what was behind the bytes read. -/
def stored (a : Address) (d : List UInt8) : List UInt8 :=
  match a.back with
  | none => a.front.flatMap groupBytes ++ a.quad
  | some back => a.front.flatMap groupBytes ++ (List.replicate d.length 0 ++
      ((back.flatMap groupBytes ++ a.quad).take d.length ++
        ((back.flatMap groupBytes ++ a.quad).drop d.length ++ d).drop d.length))

theorem Taken.run (h : a.Taken) (tail : List UInt8) (hdest : dest.length = 16) :
    ipv6ToBin (a.text ++ 0 :: tail) dest = .ok (0, a.stored (dest.drop a.count)) := by
  obtain ⟨htaken, hfits⟩ := h
  obtain ⟨st, hrun, hend, hcomp, hcount, hbin⟩ :=
    htaken.accepts.finishes tail (Nat.le_of_eq hdest.symm)
  have hcomplete := a.complete_gap
  rw [hrun]
  change st.count = a.count at hcount
  change _ = _ ++ dest.drop a.count at hbin
  have hmissing : (dest.drop a.count).length = 16 - a.count := by
    rw [List.length_drop, hdest]
  cases hback : a.back with
  | none =>
      have hgap : a.gap = none := by rw [gap, hback]; rfl
      have hgroups : a.groups = a.front := by rw [groups, hback]; simp
      rw [hgap, Complete] at hcomplete
      simp only [Option.isSome_none, Bool.false_eq_true, if_false] at hcomplete
      have hrest : dest.drop a.count = [] := List.drop_eq_nil_of_le (by omega)
      rw [hrest, hgroups, List.append_nil] at hbin
      rw [ipv6Expand_end hend, hcomp, hgap, if_neg (by simp [compAt]), hcount,
        if_neg (Nat.not_lt.mpr hcomplete), hbin, stored, hback]
  | some back =>
      have hgap : a.gap = some a.front.length := by rw [gap, hback]; rfl
      have hgroups : a.groups = a.front ++ back := by rw [groups, hback]; rfl
      rw [hgap, Complete] at hcomplete
      simp only [Option.isSome_some, if_true] at hcomplete
      have hroom := hfits a.front.length hgap
      have hlen := length_flatMap_groupBytes a.front
      have hcount' : a.count = 2 * a.front.length + (back.flatMap groupBytes ++ a.quad).length := by
        rw [count, hgroups, List.length_append, List.length_append, length_flatMap_groupBytes]
        omega
      rw [hgroups, List.flatMap_append, List.append_assoc, List.append_assoc, ← List.append_assoc
        (back.flatMap groupBytes)] at hbin
      rw [stored, hback]
      refine ipv6Expand_moves hend ?_ ?_ hbin ?_ (by omega) ?_
      · rw [hcomp, hgap, compAt, hlen]
      · rw [hcount, hcount', hlen]
      · rw [hmissing, hcount]
      · rw [hmissing]
        omega

/-- `ipv6_to_bin` returns 0 on the addresses it takes only. -/
theorem taken_of_zero {tail out : List UInt8} (hdest : dest.length = 16)
    (hrun : ipv6ToBin (a.text ++ 0 :: tail) dest = .ok (0, out)) : a.Taken := by
  have hsize : 16 ≤ dest.length := Nat.le_of_eq hdest.symm
  by_cases htaken : a.QuadTaken
  · refine ⟨htaken, by_contra fun hfits => ?_⟩
    rw [← hdest] at hfits
    rw [(htaken.accepts.gives tail hsize).overrun hfits] at hrun
    cases hrun
  · obtain ⟨out', hinvalid⟩ := a.refused htaken tail hsize
    rw [hinvalid] at hrun
    exact absurd (Prod.mk.inj (Except.ok.inj hrun)).1 (by decide)

end Address

/-! ## When the bytes are right -/

/-- The last byte of what is stored was in the object before, if more bytes stand behind
the `::` than are missing. -/
theorem getLast?_moved {b d : List UInt8} {x : UInt8} (hd : d.getLast? = some x)
    (hlt : d.length < b.length) :
    (b.take d.length ++ (b.drop d.length ++ d).drop d.length).getLast? = some x := by
  have hlen : ¬ (b.drop d.length ++ d).length ≤ d.length := by
    rw [List.length_append, List.length_drop]
    omega
  rw [List.getLast?_append, List.getLast?_drop, if_neg hlen, List.getLast?_append, hd]
  rfl

/-- Where as many bytes stand behind the `::` as are missing, they are all moved. -/
theorem moved_eq {b d : List UInt8} (hlen : d.length = b.length) :
    b.take d.length ++ (b.drop d.length ++ d).drop d.length = b := by
  rw [List.take_of_length_le (Nat.le_of_eq hlen.symm),
    List.drop_eq_nil_of_le (Nat.le_of_eq hlen.symm), List.nil_append, List.drop_length,
    List.append_nil]

namespace Address

variable {a : Address}

/-- Without a `::`, what is stored are the values of groups with equal high digits. -/
theorem stored_eq_iff_of_none (hback : a.back = none) (d : List UInt8) :
    a.stored d = a.bytes ↔ ∀ g ∈ a.groups, HighDigitsEqual g := by
  have hgroups : a.groups = a.front := by
    rw [groups, hback, Option.getD_none, List.append_nil]
  have hgroup : ∀ g ∈ a.front, IsGroup g := fun g hg => a.isGroup g (List.mem_append_left _ hg)
  rw [stored, bytes, hback, hgroups, List.append_left_inj, flatMap_groupBytes_eq_iff hgroup]

section Gap

variable {back : List (List UInt8)} (hback : a.back = some back)

include hback

theorem gap_eq : a.gap = some a.front.length := by
  rw [gap, hback]
  rfl

theorem groups_eq : a.groups = a.front ++ back := by
  rw [groups, hback]
  rfl

theorem count_eq : a.count = 2 * a.front.length + (2 * back.length + a.quad.length) := by
  rw [count, groups_eq hback, List.length_append]
  omega

/-- With a `::`, what stands in front of the gap and behind it has to be right. -/
theorem stored_eq_iff_of_some {d : List UInt8} (hd : d.length = 16 - a.count) :
    a.stored d = a.bytes ↔
      (∀ g ∈ a.front, HighDigitsEqual g) ∧
        (back.flatMap groupBytes ++ a.quad).take d.length ++
          ((back.flatMap groupBytes ++ a.quad).drop d.length ++ d).drop d.length =
            back.flatMap valueBytes ++ a.quad := by
  have hgroup : ∀ g ∈ a.front, IsGroup g := fun g hg => a.isGroup g (List.mem_append_left _ hg)
  have hlen : (a.front.flatMap groupBytes).length = (a.front.flatMap valueBytes).length := by
    rw [length_flatMap_groupBytes, length_flatMap_valueBytes]
  rw [stored, bytes, hback, ← flatMap_groupBytes_eq_iff hgroup, ← hd]
  constructor
  · intro h
    obtain ⟨hfront, hrest⟩ := List.append_inj h hlen
    exact ⟨hfront, List.append_cancel_left hrest⟩
  · rintro ⟨hfront, hrest⟩
    simp only [hfront, hrest]

/-- More bytes behind the `::` than are missing: the last byte of the object stays. -/
theorem stored_ne (hlt : 16 - a.count < 2 * back.length + a.quad.length)
    (hmissing : a.count < 16) :
    ∃ dest : List UInt8, dest.length = 16 ∧ a.stored (dest.drop a.count) ≠ a.bytes := by
  obtain ⟨x, hx⟩ : ∃ x, (back.flatMap valueBytes ++ a.quad).getLast? ≠ some x := by
    cases (back.flatMap valueBytes ++ a.quad).getLast? with
    | none => exact ⟨0, by simp⟩
    | some y => exact ⟨y + 1, by simp⟩
  have hd : ((List.replicate 16 x).drop a.count).length = 16 - a.count := by
    rw [List.length_drop, List.length_replicate]
  have hlast : ((List.replicate 16 x).drop a.count).getLast? = some x := by
    rw [List.drop_replicate, List.getLast?_replicate, if_neg (by omega)]
  refine ⟨List.replicate 16 x, List.length_replicate, fun h => hx ?_⟩
  obtain ⟨-, hrest⟩ := (stored_eq_iff_of_some hback hd).mp h
  rw [← hrest]
  exact getLast?_moved hlast (by rw [hd, List.length_append, length_flatMap_groupBytes]; exact hlt)

/-- As many bytes behind the `::` as are missing. -/
theorem stored_eq_iff_of_even {d : List UInt8} (hd : d.length = 16 - a.count)
    (heven : 16 - a.count = 2 * back.length + a.quad.length) :
    a.stored d = a.bytes ↔ ∀ g ∈ a.groups, HighDigitsEqual g := by
  have hgroup : ∀ g ∈ back, IsGroup g := by
    have hall := a.isGroup
    rw [hback] at hall
    exact fun g hg => hall g (List.mem_append_right _ hg)
  have hlen : d.length = (back.flatMap groupBytes ++ a.quad).length := by
    rw [hd, List.length_append, length_flatMap_groupBytes, heven]
  rw [stored_eq_iff_of_some hback hd, moved_eq hlen, List.append_left_inj,
    flatMap_groupBytes_eq_iff hgroup, groups_eq hback]
  constructor
  · rintro ⟨hfront, hrest⟩ g hg
    exact (List.mem_append.mp hg).elim (hfront g) (hrest g)
  · intro h
    exact ⟨fun g hg => h g (List.mem_append_left _ hg),
      fun g hg => h g (List.mem_append_right _ hg)⟩

end Gap

/-- What an address that is taken leaves is right whatever the object held before. -/
theorem Taken.stored_eq_iff (h : a.Taken) :
    (∀ dest : List UInt8, dest.length = 16 → a.stored (dest.drop a.count) = a.bytes) ↔
      (∀ g ∈ a.groups, HighDigitsEqual g) ∧ ∀ k ∈ a.gap, a.count - 2 * k = 16 - a.count := by
  have hlen : ∀ dest : List UInt8, dest.length = 16 →
      (dest.drop a.count).length = 16 - a.count := by
    intro dest hdest
    rw [List.length_drop, hdest]
  cases hback : a.back with
  | none =>
      have hgap : a.gap = none := by
        rw [gap, hback]
        rfl
      constructor
      · intro hall
        refine ⟨(stored_eq_iff_of_none hback _).mp (hall (List.replicate 16 0) (by decide)), ?_⟩
        rw [hgap]
        rintro k ⟨⟩
      · rintro ⟨hgroups, -⟩ dest -
        exact (stored_eq_iff_of_none hback _).mpr hgroups
  | some back =>
      have hcount := count_eq hback
      have hfits := h.2 a.front.length (gap_eq hback)
      have hcomplete := a.complete_gap
      rw [gap_eq hback, Complete] at hcomplete
      simp only [Option.isSome_some, if_true] at hcomplete
      rw [gap_eq hback]
      by_cases heven : 16 - a.count = 2 * back.length + a.quad.length
      · constructor
        · intro hall
          refine ⟨(stored_eq_iff_of_even hback (hlen _ (by decide)) heven).mp
            (hall (List.replicate 16 0) (by decide)), ?_⟩
          rintro k ⟨⟩
          omega
        · rintro ⟨hgroups, -⟩ dest hdest
          exact (stored_eq_iff_of_even hback (hlen dest hdest) heven).mpr hgroups
      · constructor
        · intro hall
          obtain ⟨dest, hdest, hne⟩ := stored_ne hback (by omega) hcomplete
          exact absurd (hall dest hdest) hne
        · rintro ⟨-, hgap⟩
          have := hgap a.front.length rfl
          omega

end Address

/-- Where `ipv6_to_bin` returns 0, the object holds the address whatever was in it before,
exactly if the address meets the condition. -/
theorem ipv6ToBin_bytes_iff (a : Address) (tail : List UInt8) :
    (∀ dest out : List UInt8, dest.length = 16 →
        ipv6ToBin (a.text ++ 0 :: tail) dest = .ok (0, out) → out = a.bytes) ↔ a.Meets := by
  constructor
  · intro hall htaken
    refine htaken.stored_eq_iff.mp fun dest hdest => ?_
    exact hall dest _ hdest (htaken.run tail hdest)
  · intro hmeets dest out hdest hrun
    have htaken := Address.taken_of_zero hdest hrun
    rw [htaken.run tail hdest] at hrun
    rw [← (Prod.mk.inj (Except.ok.inj hrun)).2]
    exact htaken.stored_eq_iff.mpr (hmeets htaken) dest hdest

/-- `1234:0:0:0:0:0:0:0`. -/
def oneGroupAddress : Address where
  front := ascii "1234" :: List.replicate 7 (ascii "0")
  back := none
  quad := []
  isGroup := by
    intro g hg
    simp only [Option.getD_none, List.append_nil, List.mem_cons, List.mem_replicate] at hg
    rcases hg with rfl | ⟨-, rfl⟩
    · exact ⟨by decide, by decide, List.all_eq_true.mp (by decide)⟩
    · exact ⟨by decide, by decide, List.all_eq_true.mp (by decide)⟩
  length_quad := Or.inl rfl
  complete := rfl

/-- The group `1234` is stored as the bytes `23` and `34`. -/
theorem ipv6ToBin_mixes_digits :
    ¬ ∀ (a : Address) (tail dest out : List UInt8), dest.length = 16 →
      ipv6ToBin (a.text ++ 0 :: tail) dest = .ok (0, out) → out = a.bytes := by
  intro h
  have hrun : ipv6ToBin (oneGroupAddress.text ++ [0]) (List.replicate 16 0) =
      .ok (0, 0x23 :: 0x34 :: List.replicate 14 0) := by
    decide +kernel
  have hbytes := h oneGroupAddress [] (List.replicate 16 0) _ (by decide) hrun
  exact absurd hbytes (by decide)

end Hlibc.Inet
