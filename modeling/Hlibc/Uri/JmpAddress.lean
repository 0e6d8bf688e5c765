import Hlibc.Uri.AddressRules
import Hlibc.Uri.Jmp

/-!
# The addresses of `uri_jmp.c`

`parse_ipv4_move` adds ten to a number where it should multiply by it.  `parse_ipv6_move`
skips the first character behind the bracket, and asks for a group in front of every colon
and of the bracket; the group in front of a `::` is not counted.
-/

set_option autoImplicit false

namespace Hlibc.Uri.Jmp

open Grammar Inet

/-! ## Rules -/

/-- The number of groups that is counted fits the address. -/
def Fits (seen : Bool) (count : ℕ) : Prop := if seen then count < 8 else count = 8

/-- The text up to the bracket from a segment on, behind `count` counted groups. -/
inductive Segments : Bool → ℕ → List UInt8 → Prop
  | group {seen : Bool} {count : ℕ} {g : List UInt8} (hg : IsGroup g)
      (hfits : Fits seen (count + 1)) : Segments seen count g
  | address {seen : Bool} {count : ℕ} {p : List UInt8} (hp : DottedFront (10 + ·) 3 p [])
      (hfits : Fits seen (count + 2)) : Segments seen count p
  | colon {seen : Bool} {count : ℕ} {g t : List UInt8} (hg : IsGroup g) (hroom : count + 1 ≤ 8)
      (ht : Segments seen (count + 1) t) : Segments seen count (g ++ chr ':' :: t)
  | double {count : ℕ} {g t : List UInt8} (hg : IsGroup g) (hroom : count ≤ 8)
      (ht : Segments true count t) : Segments false count (g ++ chr ':' :: chr ':' :: t)

/-- The text between brackets. -/
inductive IsIpv6 : List UInt8 → Prop
  | compressed {t : List UInt8} (ht : Segments true 0 t) : IsIpv6 (chr ':' :: chr ':' :: t)
  | skipped {c : UInt8} {t : List UInt8} (hcolon : c ≠ chr ':') (hv : c ≠ chr 'v')
      (ht : Segments false 0 t) : IsIpv6 (c :: t)

theorem Segments.headD {seen : Bool} {count : ℕ} {t : List UInt8} (ht : Segments seen count t)
    (r : List UInt8) : isxdigit ((t ++ r).headD 0) = true := by
  cases ht with
  | group hg hfits => exact headD_group hg r
  | address hp hfits =>
      obtain ⟨o, p', ho, rfl, hp'⟩ := hp
      rw [List.append_assoc]
      exact headD_group ho.isGroup _
  | colon hg hroom ht =>
      rw [List.append_assoc]
      exact headD_group hg _
  | double hg hroom ht =>
      rw [List.append_assoc]
      exact headD_group hg _

/-! ## IPv4 -/

section Ipv4

variable {src w p r : List UInt8} {pos : ℕ}

theorem hlibIsdigit_isdigit : hlibIsdigit = isdigit := funext hlibIsdigit_eq

theorem parseIpv4Move_eq (h : StringAt src pos (p ++ r)) (hp : DottedFront (10 + ·) 3 p r) :
    parseIpv4Move src pos = .ok (true, pos + p.length) := by
  rw [parseIpv4Move, hlibIsdigit_isdigit, octetsScan_eq h hp]
  rfl

theorem parseIpv4Move_cases (h : StringAt src pos w) :
    parseIpv4Move src pos = .ok (false, pos) ∧
        (¬ ∃ p r, w = p ++ r ∧ DottedFront (10 + ·) 3 p r) ∨
      ∃ p r, w = p ++ r ∧ DottedFront (10 + ·) 3 p r ∧
        parseIpv4Move src pos = .ok (true, pos + p.length) := by
  obtain ⟨res, hscan, hres⟩ := octetsScan_sound (10 + ·) h
  cases res with
  | none =>
      refine Or.inl ⟨by rw [parseIpv4Move, hlibIsdigit_isdigit, hscan]; rfl, ?_⟩
      rintro ⟨p, r, rfl, hp⟩
      rw [octetsScan_eq h hp] at hscan
      cases hscan
  | some q =>
      obtain ⟨p, r, rfl, hp, rfl⟩ := hres q rfl
      exact Or.inr ⟨p, r, rfl, hp, parseIpv4Move_eq h hp⟩

end Ipv4

/-! ## IPv6 -/

/-- What `parse_ipv6_move` does behind its segments: the position behind the address. -/
def segmentsCheck : Option SegmentState → Option ℕ
  | none => none
  | some st => if (if st.seen then st.count ≥ 8 else st.count ≠ 8) then none else some st.pos

/-- `parse_ipv6_move` from a segment on. -/
def segmentsRun (src : List UInt8) (budget : ℕ) (st : SegmentState) : Exec (Option ℕ) :=
  segmentsCheck <$> loop (segmentPass src) budget st

section Ipv6

variable {src w g p t r : List UInt8} {pos count budget : ℕ} {seen : Bool}

theorem segmentsRun_next {st st' : SegmentState} (h : segmentPass src st = .ok (.next st')) :
    segmentsRun src (budget + 1) st = segmentsRun src budget st' := by
  rw [segmentsRun, loop_next h, segmentsRun]

theorem segmentsRun_done {st : SegmentState} {res : Option SegmentState}
    (h : segmentPass src st = .ok (.done res)) :
    segmentsRun src (budget + 1) st = .ok (segmentsCheck res) := by
  rw [segmentsRun, loop_done h]
  rfl

theorem segmentsCheck_some : segmentsCheck (some { pos := pos, count := count, seen := seen }) =
    some pos ↔ Fits seen count := by
  rw [segmentsCheck, Fits]
  cases seen <;> simp

theorem segmentsCheck_mem {q : ℕ}
    (h : q ∈ segmentsCheck (some { pos := pos, count := count, seen := seen })) :
    q = pos ∧ Fits seen count := by
  have hq : q = pos := by
    by_cases hbad : if seen = true then count ≥ 8 else count ≠ 8
    · rw [segmentsCheck, if_pos hbad] at h
      cases h
    · rw [segmentsCheck, if_neg hbad] at h
      exact (Option.some.inj h).symm
  subst hq
  exact ⟨rfl, segmentsCheck_some.mp h⟩

theorem segmentPass_none (h : StringAt src pos w) (hstop : startsChar isxdigit w = false) :
    segmentPass src { pos := pos, count := count, seen := seen } = .ok (.done none) := by
  rw [startsChar_headD (by decide)] at hstop
  simp only [segmentPass, h.read, Exec.ok_bind, hlibIsxdigit_eq, hstop, Bool.false_eq_true,
    if_false]

theorem segmentPass_group (count : ℕ) (seen : Bool) (h : StringAt src pos (g ++ r)) (hg : IsGroup g)
    (hends : GroupEnds g r) :
    segmentPass src { pos := pos, count := count, seen := seen } =
      if r.headD 0 = chr ':' then do
        let c ← readByte src (pos + g.length + 1)
        if c = chr ':' then
          if seen then .ok (.done none) else
          if count > 8 then .ok (.done none) else
          .ok (.next { pos := pos + g.length + 2, count := count, seen := true })
        else
          if count + 1 > 8 then .ok (.done none) else
          .ok (.next { pos := pos + g.length + 1, count := count + 1, seen := seen })
      else if r.headD 0 = chr '.' then do
        let (moved, pos) ← parseIpv4Move src pos
        if moved then
          let c ← readByte src pos
          if c ≠ chr ']' then .ok (.done none) else
          .ok (.done (some { pos := pos + 1, count := count + 2, seen := seen }))
        else .ok (.done none)
      else if r.headD 0 = chr ']' then
        .ok (.done (some { pos := pos + g.length + 1, count := count + 1, seen := seen }))
      else .ok (.done none) := by
  obtain ⟨c, hread, hdigit, hscan⟩ := hexScan_group h hg hends
  simp only [segmentPass, hread, Exec.ok_bind, hdigit, if_true, hscan, h.append.read]

theorem groupEnds_of_headD {k : UInt8} (hk : isxdigit k = false) : GroupEnds g (k :: r) :=
  fun _ => hk

theorem segmentsRun_eq (ht : Segments seen count t) (h : StringAt src pos (t ++ chr ']' :: r))
    (hbudget : t.length < budget) :
    segmentsRun src budget { pos := pos, count := count, seen := seen } =
      .ok (some (pos + t.length + 1)) := by
  induction ht generalizing pos budget with
  | @group seen count g hg hfits =>
      obtain ⟨budget, rfl⟩ : ∃ k, budget = k + 1 := ⟨budget - 1, by omega⟩
      have hpass := segmentPass_group count seen h hg
        (groupEnds_of_headD (by decide))
      have hcolon : ¬ chr ']' = chr ':' := by decide
      have hdot : ¬ chr ']' = chr '.' := by decide
      simp only [List.headD_cons, if_neg hcolon, if_neg hdot, if_true] at hpass
      rw [segmentsRun_done hpass, segmentsCheck_some.mpr hfits]
  | @address seen count p hp hfits =>
      obtain ⟨budget, rfl⟩ : ∃ k, budget = k + 1 := ⟨budget - 1, by omega⟩
      obtain ⟨o, p', ho, rfl, hp'⟩ := id hp
      have hquad : DottedFront (10 + ·) 3 (o ++ chr '.' :: p') (chr ']' :: r) :=
        hp.congr fun _ => (by decide : isdigit (chr ']') = false)
      have hmove := parseIpv4Move_eq h hquad
      have hend : readByte src (pos + (o ++ chr '.' :: p').length) = .ok (chr ']') :=
        h.append.read
      rw [List.append_assoc, List.cons_append] at h
      have hpass := segmentPass_group count seen h ho.isGroup
        (groupEnds_of_headD (by decide))
      have hcolon : ¬ chr '.' = chr ':' := by decide
      simp only [List.headD_cons, if_neg hcolon, if_true, hmove, Exec.ok_bind, hend, ne_eq,
        not_true_eq_false, if_false] at hpass
      rw [segmentsRun_done hpass, segmentsCheck_some.mpr hfits]
  | @colon seen count g t hg hroom ht ih =>
      obtain ⟨budget, rfl⟩ : ∃ k, budget = k + 1 := ⟨budget - 1, by omega⟩
      rw [List.append_assoc, List.cons_append] at h
      have hpass := segmentPass_group count seen h hg
        (groupEnds_of_headD (by decide))
      have hfirst : (t ++ chr ']' :: r).headD 0 ≠ chr ':' := by
        intro hcolon
        have hdigit := ht.headD (chr ']' :: r)
        rw [hcolon] at hdigit
        exact absurd hdigit (by decide)
      have hread := h.append.tail.read
      simp only [List.headD_cons, if_true, hread, Exec.ok_bind, if_neg hfirst,
        if_neg (Nat.not_lt.mpr hroom)] at hpass
      rw [List.length_append, List.length_cons] at hbudget ⊢
      rw [segmentsRun_next hpass, ih h.append.tail (by omega)]
      congr 2
      omega
  | @double count g t hg hroom ht ih =>
      obtain ⟨budget, rfl⟩ : ∃ k, budget = k + 1 := ⟨budget - 1, by omega⟩
      rw [List.append_assoc, List.cons_append, List.cons_append] at h
      have hpass := segmentPass_group count false h hg
        (groupEnds_of_headD (by decide))
      have hread : readByte src (pos + g.length + 1) = .ok (chr ':') := h.append.tail.read
      simp only [List.headD_cons, if_true, hread, Exec.ok_bind, Bool.false_eq_true, if_false,
        if_neg (Nat.not_lt.mpr hroom)] at hpass
      rw [List.length_append, List.length_cons, List.length_cons] at hbudget ⊢
      rw [segmentsRun_next hpass, ih h.append.tail.tail (by omega)]
      congr 2
      omega

/-- A segment without a colon behind its group ends the address. -/
theorem segmentPass_ends (count : ℕ) (seen : Bool) (h : StringAt src pos (g ++ w))
    (hg : IsGroup g) (hends : GroupEnds g w) (hcolon : ¬ w.headD 0 = chr ':') :
    ∃ res, segmentPass src { pos := pos, count := count, seen := seen } = .ok (.done res) ∧
      ∀ q ∈ segmentsCheck res, ∃ t r, g ++ w = t ++ chr ']' :: r ∧ Segments seen count t ∧
        q = pos + t.length + 1 := by
  have hpass := segmentPass_group count seen h hg hends
  rw [if_neg hcolon] at hpass
  have hnone : ∀ q ∈ segmentsCheck none, ∃ t r, g ++ w = t ++ chr ']' :: r ∧
      Segments seen count t ∧ q = pos + t.length + 1 := by simp [segmentsCheck]
  by_cases hdot : w.headD 0 = chr '.'
  · rw [if_pos hdot] at hpass
    rcases parseIpv4Move_cases h with ⟨hmove, -⟩ | ⟨p, w', hw, hp, hmove⟩
    · rw [hmove] at hpass
      exact ⟨none, hpass, hnone⟩
    rw [hw] at h
    simp only [hmove, Exec.ok_bind, if_true, h.append.read] at hpass
    by_cases hend : w'.headD 0 = chr ']'
    · obtain ⟨r, rfl⟩ := exists_cons_of_headD hend (by decide)
      rw [if_neg (not_not.mpr hend)] at hpass
      refine ⟨_, hpass, fun q hq => ?_⟩
      obtain ⟨rfl, hfits⟩ := segmentsCheck_mem hq
      exact ⟨p, r, hw, .address (hp.congr fun _ => rfl) hfits, rfl⟩
    · rw [if_pos hend] at hpass
      exact ⟨none, hpass, hnone⟩
  rw [if_neg hdot] at hpass
  by_cases hend : w.headD 0 = chr ']'
  · obtain ⟨r, rfl⟩ := exists_cons_of_headD hend (by decide)
    rw [if_pos hend] at hpass
    refine ⟨_, hpass, fun q hq => ?_⟩
    obtain ⟨rfl, hfits⟩ := segmentsCheck_mem hq
    exact ⟨g, r, rfl, .group hg hfits, rfl⟩
  · rw [if_neg hend] at hpass
    exact ⟨none, hpass, hnone⟩

/-- What `parse_ipv6_move` takes follows the rules. -/
theorem segmentsRun_sound (count : ℕ) (seen : Bool) (h : StringAt src pos w)
    (hbudget : w.length < budget) :
    ∃ res, segmentsRun src budget { pos := pos, count := count, seen := seen } = .ok res ∧
      ∀ q ∈ res, ∃ t r, w = t ++ chr ']' :: r ∧ Segments seen count t ∧
        q = pos + t.length + 1 := by
  induction budget generalizing pos count seen w with
  | zero => exact absurd hbudget (Nat.not_lt_zero _)
  | succ budget ih =>
      have hgiven : segmentPass src { pos := pos, count := count, seen := seen } =
          .ok (.done none) → ∃ res, segmentsRun src (budget + 1)
            { pos := pos, count := count, seen := seen } = .ok res ∧ ∀ q ∈ res, ∃ t r,
              w = t ++ chr ']' :: r ∧ Segments seen count t ∧ q = pos + t.length + 1 :=
        fun hpass => ⟨none, segmentsRun_done hpass, by simp⟩
      rcases group_cases w with hstop | ⟨g, w, rfl, hg, hends⟩
      · exact hgiven (segmentPass_none h hstop)
      have hpass := segmentPass_group count seen h hg hends
      have hbehind := h.append
      rw [List.length_append] at hbudget
      by_cases hcolon : w.headD 0 = chr ':'
      · obtain ⟨w, rfl⟩ := exists_cons_of_headD hcolon (by decide)
        rw [if_pos hcolon, hbehind.tail.read, Exec.ok_bind] at hpass
        rw [List.length_cons] at hbudget
        by_cases hdouble : w.headD 0 = chr ':'
        · obtain ⟨w, rfl⟩ := exists_cons_of_headD hdouble (by decide)
          rw [if_pos hdouble] at hpass
          rw [List.length_cons] at hbudget
          cases seen with
          | true => exact hgiven hpass
          | false =>
              rw [if_neg Bool.false_ne_true] at hpass
              by_cases hroom : count > 8
              · rw [if_pos hroom] at hpass
                exact hgiven hpass
              rw [if_neg hroom] at hpass
              obtain ⟨res, hrun, hres⟩ := ih count true hbehind.tail.tail
                (by omega)
              refine ⟨res, (segmentsRun_next hpass).trans hrun, fun q hq => ?_⟩
              obtain ⟨t, r, rfl, ht, rfl⟩ := hres q hq
              refine ⟨g ++ chr ':' :: chr ':' :: t, r, by simp,
                .double hg (Nat.not_lt.mp hroom) ht, ?_⟩
              simp only [List.length_append, List.length_cons]
              omega
        · rw [if_neg hdouble] at hpass
          by_cases hroom : count + 1 > 8
          · rw [if_pos hroom] at hpass
            exact hgiven hpass
          rw [if_neg hroom] at hpass
          obtain ⟨res, hrun, hres⟩ := ih (count + 1) seen hbehind.tail
            (by omega)
          refine ⟨res, (segmentsRun_next hpass).trans hrun, fun q hq => ?_⟩
          obtain ⟨t, r, rfl, ht, rfl⟩ := hres q hq
          refine ⟨g ++ chr ':' :: t, r, by simp, .colon hg (Nat.not_lt.mp hroom) ht, ?_⟩
          simp only [List.length_append, List.length_cons]
          omega
      obtain ⟨res, hdone, hres⟩ := segmentPass_ends count seen h hg hends hcolon
      exact ⟨_, segmentsRun_done hdone, hres⟩

theorem segments_run {srcPos : ℕ} {st : SegmentState} :
    segments src srcPos st = segmentsRun src (src.length + 1) st >>= fun res =>
      .ok (match res with
        | none => (false, srcPos)
        | some p => (true, p)) := by
  rw [segments, segmentsRun]
  cases loop (segmentPass src) (src.length + 1) st with
  | error e => rfl
  | ok res =>
      cases res with
      | none => rfl
      | some st =>
          simp only [Exec.ok_bind, Exec.map_ok, segmentsCheck]
          by_cases hbad : if st.seen = true then st.count ≥ 8 else st.count ≠ 8
          · simp only [if_pos hbad]
          · simp only [if_neg hbad]

/-- `parse_ipv6_move` takes an address that follows the rules, or nothing; with nothing behind
the bracket it leaves the text. -/
theorem parseIpv6Move_eq (h : StringAt src pos (chr '[' :: (t ++ chr ']' :: r)))
    (ht : IsIpv6 t) : parseIpv6Move src pos = .ok (true, pos + t.length + 2) := by
  have hbracket : readByte src pos = .ok (chr '[') := h.read
  have hlen := h.tail.length_lt
  rw [List.length_append] at hlen
  cases ht with
  | @compressed t ht =>
      have hfirst : readByte src (pos + 1) = .ok (chr ':') := h.tail.read
      have hsecond : readByte src (pos + 2) = .ok (chr ':') := h.tail.tail.read
      have hrun : segmentsRun src (src.length + 1) _ = _ := segmentsRun_eq ht h.tail.tail.tail
        (by simp only [List.length_cons] at hlen; omega)
      simp only [parseIpv6Move, hbracket, hfirst, hsecond, Exec.ok_bind, ne_eq, not_true_eq_false,
        if_false, if_true, segments_run, hrun, List.length_cons]
      congr 2
      omega
  | @skipped c t hcolon hv ht =>
      have hfirst : readByte src (pos + 1) = .ok c := h.tail.read
      have hrun : segmentsRun src (src.length + 1) _ = _ := segmentsRun_eq ht h.tail.tail
        (by simp only [List.length_cons] at hlen; omega)
      simp only [parseIpv6Move, hbracket, hfirst, Exec.ok_bind, ne_eq, not_true_eq_false,
        if_false, hcolon, segments_run, hrun, List.length_cons]
      congr 2
      omega

theorem parseIpv6Move_cases {c : UInt8} (h : StringAt src pos (chr '[' :: c :: w))
    (hv : c ≠ chr 'v') :
    (∃ p, parseIpv6Move src pos = .ok (false, p)) ∨ ∃ t r, c :: w = t ++ chr ']' :: r ∧
      IsIpv6 t ∧ parseIpv6Move src pos = .ok (true, pos + t.length + 2) := by
  have hbracket : readByte src pos = .ok (chr '[') := h.read
  have hfirst : readByte src (pos + 1) = .ok c := h.tail.read
  have hsegments : ∀ (t : List UInt8) (seen : Bool) {w' : List UInt8} {p : ℕ},
      c :: w = t ++ w' → StringAt src p w' → parseIpv6Move src pos =
        segments src pos { pos := p, count := 0, seen := seen } →
      (∀ t', Segments seen 0 t' → IsIpv6 (t ++ t')) →
      (∃ p, parseIpv6Move src pos = .ok (false, p)) ∨ ∃ t r, c :: w = t ++ chr ']' :: r ∧
        IsIpv6 t ∧ parseIpv6Move src pos = .ok (true, pos + t.length + 2) := by
    intro t seen w' p hw hp hparse hall
    obtain ⟨res, hrun, hres⟩ := segmentsRun_sound 0 seen hp hp.length_lt
    cases res with
    | none =>
        left
        exact ⟨pos, by rw [hparse, segments_run, hrun, Exec.ok_bind]⟩
    | some q =>
        right
        obtain ⟨t', r, rfl, ht', -⟩ := hres q rfl
        have hshape : c :: w = t ++ t' ++ chr ']' :: r := by rw [hw, List.append_assoc]
        exact ⟨t ++ t', r, hshape, hall t' ht', parseIpv6Move_eq (hshape ▸ h) (hall t' ht')⟩
  by_cases hcolon : c = chr ':'
  · subst hcolon
    by_cases hsecond : w.headD 0 = chr ':'
    · obtain ⟨w, rfl⟩ := exists_cons_of_headD hsecond (by decide)
      have hread : readByte src (pos + 2) = .ok (chr ':') := h.tail.tail.read
      refine hsegments [chr ':', chr ':'] true rfl h.tail.tail.tail ?_
        fun t' ht' => .compressed ht'
      simp only [parseIpv6Move, hbracket, hfirst, hread, Exec.ok_bind, ne_eq, not_true_eq_false,
        if_false, if_true]
    · left
      have hread : readByte src (pos + 2) = .ok (w.headD 0) := h.tail.tail.read
      refine ⟨pos, ?_⟩
      simp only [parseIpv6Move, hbracket, hfirst, hread, Exec.ok_bind, ne_eq, not_true_eq_false,
        if_false, if_true, hsecond, not_false_eq_true]
  · refine hsegments [c] false rfl h.tail.tail ?_
      fun t' ht' => .skipped hcolon hv ht'
    simp only [parseIpv6Move, hbracket, hfirst, Exec.ok_bind, ne_eq, not_true_eq_false, if_false,
      hcolon]

end Ipv6

end Hlibc.Uri.Jmp
