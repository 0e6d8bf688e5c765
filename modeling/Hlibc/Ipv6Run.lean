import Hlibc.Ipv6Text

/-!
# How `ipv6_to_bin` ends

Every run of the loop of `ipv6_to_bin` has read groups of the text when it ends.
`Leaves` says how it can end, on a string or on an object too long for its loop
to pass over; from it, the results of the function are those of the texts that
can be read.
-/

set_option autoImplicit false

namespace Hlibc.Inet

/-! ## How far the groups reach -/

theorem Separates.zero_notMem {gs : List (List UInt8)} {c c' : Option ℕ} {sep : List UInt8}
    (h : Separates gs c sep c') : 0 ∉ sep := by
  cases h with
  | start => exact List.not_mem_nil
  | colon => decide
  | missing => exact List.not_mem_nil
  | double => decide

namespace Reads

variable {gs : List (List UInt8)} {c : Option ℕ} {t : List UInt8}

theorem length_le_eight (h : Reads gs c t) : gs.length ≤ 8 := by
  cases h with
  | start => exact Nat.zero_le 8
  | group h hroom hsep hg =>
      rw [Full] at hroom
      rw [List.length_append, List.length_singleton]
      omega

/-- A group takes four characters and one in front of it; the first takes four. -/
theorem length_le_of_none (h : Reads gs none t) : t.length ≤ 5 * gs.length - 1 := by
  generalize hc : none = c at h
  induction h with
  | start => exact Nat.zero_le _
  | group h hroom hsep hg ih =>
      have hfour := hg.length_le
      simp only [List.length_append, List.length_singleton]
      cases hsep with
      | start hnil =>
          cases h with
          | start =>
              simp only [List.length_nil]
              omega
          | group => exact absurd hnil (by simp)
      | colon hne =>
          have := ih hc
          have := List.length_pos_iff.mpr hne
          simp only [List.length_singleton]
          omega
      | missing hfull =>
          have := ih hc
          simp only [List.length_nil]
          omega
      | double => cases hc

/-- The second colon of a `::` takes one character more. -/
theorem length_le (h : Reads gs c t) : t.length ≤ 5 * gs.length + 1 := by
  induction h with
  | start => exact Nat.zero_le _
  | group h hroom hsep hg ih =>
      have hfour := hg.length_le
      simp only [List.length_append, List.length_singleton]
      cases hsep with
      | start =>
          simp only [List.length_nil]
          omega
      | colon =>
          simp only [List.length_singleton]
          omega
      | missing =>
          simp only [List.length_nil]
          omega
      | double =>
          have := h.length_le_of_none
          simp only [List.length_cons, List.length_nil]
          omega

/-- The groups in front of another one leave room for it in forty characters. -/
theorem length_le_of_room (h : Reads gs c t) (hroom : ¬ Full gs c) : t.length ≤ 34 := by
  rw [Full] at hroom
  cases c with
  | none =>
      have := h.length_le_of_none
      simp only [Option.isSome_none, Bool.false_eq_true, if_false] at hroom
      omega
  | some k =>
      have := h.length_le
      simp only [Option.isSome_some, if_true] at hroom
      omega

theorem zero_notMem (h : Reads gs c t) : 0 ∉ t := by
  induction h with
  | start => exact List.not_mem_nil
  | group h hroom hsep hg ih =>
      rw [List.mem_append, List.mem_append, not_or, not_or]
      exact ⟨ih, hsep.zero_notMem, fun hzero => absurd (hg.digits 0 hzero) (by decide)⟩

theorem eq_start (h : Reads [] c t) : c = none ∧ t = [] := by
  generalize hgs : [] = gs at h
  cases h with
  | start => exact ⟨rfl, rfl⟩
  | group => exact absurd hgs (by simp)

end Reads

/-! ## What is left of the source -/

/-- A null byte comes, or `n` bytes do. -/
def GoesOn (n : ℕ) (w : List UInt8) : Prop := 0 ∈ w ∨ n ≤ w.length

theorem GoesOn.exists_cons {n : ℕ} {w : List UInt8} (h : GoesOn (n + 1) w) :
    ∃ d w', w = d :: w' ∧ (d ≠ 0 → GoesOn n w') := by
  cases w with
  | nil =>
      rcases h with hzero | hlen
      · exact absurd hzero List.not_mem_nil
      · exact absurd hlen (Nat.not_succ_le_zero n)
  | cons d w =>
      refine ⟨d, w, rfl, fun hd => ?_⟩
      rcases h with hzero | hlen
      · exact Or.inl ((List.mem_cons.mp hzero).resolve_left (Ne.symm hd))
      · exact Or.inr (Nat.le_of_succ_le_succ hlen)

theorem GoesOn.of_append {n : ℕ} {t w : List UInt8}
    (h : 0 ∈ t ++ w ∨ t.length + n ≤ (t ++ w).length) (hzero : 0 ∉ t) : GoesOn n w := by
  rw [List.mem_append, List.length_append] at h
  rcases h with (hmem | hmem) | hlen
  · exact absurd hmem hzero
  · exact Or.inl hmem
  · exact Or.inr (by omega)

theorem GoesOn.exists_digits {n : ℕ} {w : List UInt8} (h : GoesOn n w) :
    ∃ g r, w = g ++ r ∧ (∀ c ∈ g, isxdigit c = true) ∧ g.length ≤ n ∧
      (g.length = n ∨ ∃ d r', r = d :: r' ∧ isxdigit d = false) := by
  induction n generalizing w with
  | zero => exact ⟨[], w, rfl, by simp, Nat.le_refl 0, Or.inl rfl⟩
  | succ n ih =>
      obtain ⟨d, w, rfl, hw⟩ := h.exists_cons
      cases hd : isxdigit d with
      | false => exact ⟨[], d :: w, rfl, by simp, Nat.zero_le _, Or.inr ⟨d, w, rfl, hd⟩⟩
      | true =>
          have hzero : d ≠ 0 := by
            rintro rfl
            exact absurd hd (by decide)
          obtain ⟨g, r, rfl, hg, hlen, hends⟩ := ih (hw hzero)
          refine ⟨d :: g, r, rfl, List.forall_mem_cons.mpr ⟨hd, hg⟩, Nat.succ_le_succ hlen, ?_⟩
          exact hends.imp_left (congrArg Nat.succ)

theorem exists_group {d : UInt8} {w : List UInt8} (hd : isxdigit d = true)
    (h : GoesOn 4 (d :: w)) :
    ∃ g r, d :: w = g ++ r ∧ IsGroup g ∧
      (Ends g r ∨ g.length < 4 ∧ ∃ r', r = chr '.' :: r') := by
  obtain ⟨g, r, hw, hg, hlen, hends⟩ := h.exists_digits
  have hne : g ≠ [] := by
    rintro rfl
    rcases hends with hfour | ⟨e, r', rfl, he⟩
    · cases hfour
    · obtain ⟨rfl, -⟩ := List.cons.inj hw
      exact absurd (hd.symm.trans he) (by decide)
  refine ⟨g, r, hw, ⟨hne, hlen, hg⟩, ?_⟩
  by_cases hfour : g.length = 4
  · exact Or.inl (Or.inl hfour)
  obtain ⟨e, r', rfl, he⟩ := hends.resolve_left hfour
  by_cases hdot : e = chr '.'
  · exact Or.inr ⟨by omega, r', by rw [hdot]⟩
  · exact Or.inl (Or.inr ⟨e, r', rfl, he, hdot⟩)

/-! ## One pass -/

/-- How the loop of `ipv6_to_bin` ends. -/
inductive Leaves (src dest : List UInt8) : Exec Ipv6Exit → Prop where
  | invalid (bin : List UInt8) : Leaves src dest (.ok (.invalid bin))
  /-- In front of a null byte, or because the groups are enough. -/
  | groups {gs : List (List UInt8)} {c : Option ℕ} {t w : List UInt8} {d : UInt8}
      (h : Reads gs c t) (hsrc : src = t ++ d :: w) (hstop : d = 0 ∨ Full gs c) :
      Leaves src dest (.ok (.left (stateAt dest gs c t.length)))
  /-- Behind a `::` at the end. -/
  | double {gs : List (List UInt8)} {t w : List UInt8} (h : Reads gs none t)
      (hroom : ¬ Full gs none) (hsrc : src = t ++ chr ':' :: chr ':' :: 0 :: w) :
      Leaves src dest (.ok (.left (stateAt dest gs (some gs.length) (t.length + 2))))
  | quad {gs : List (List UInt8)} {c : Option ℕ} {t sep r : List UInt8} (h : Reads gs c t)
      (htakes : TakesQuad gs c sep) (hsrc : src = t ++ (sep ++ r)) :
      Leaves src dest (quadExit src { stateAt dest gs c (t ++ sep).length with mapped := true })
  /-- The groups are all there is of the source. -/
  | outside {gs : List (List UInt8)} {c : Option ℕ} (h : Reads gs c src) :
      Leaves src dest (.error .read)

/-- The loop has read groups up to its position, and the last of them is ended. -/
def Reached (src dest : List UInt8) (st : Ipv6State) : Prop :=
  ∃ gs c t w, Reads gs c t ∧ src = t ++ w ∧ (∀ g ∈ gs.getLast?, Ends g w) ∧
    st = stateAt dest gs c t.length

/-- What a pass does behind `n` groups. -/
def PassLeaves (src dest : List UInt8) (n : ℕ) (pass : Exec (Pass Ipv6State Ipv6Exit)) : Prop :=
  (∃ exit, pass = .ok (.done exit) ∧ Leaves src dest (.ok exit)) ∨
    (∃ e, pass = .error e ∧ Leaves src dest (.error e)) ∨
      ∃ st, pass = .ok (.next st) ∧ Reached src dest st ∧ st.count = 2 * (n + 1)

section Passes

variable {src dest t : List UInt8} {gs : List (List UInt8)} {c c' : Option ℕ}

theorem passLeaves_invalid (n : ℕ) (bin : List UInt8) :
    PassLeaves src dest n (.ok (.done (.invalid bin))) :=
  Or.inl ⟨_, rfl, .invalid bin⟩

theorem Leaves.map_done {exit : Exec Ipv6Exit} (h : Leaves src dest exit) (n : ℕ) :
    PassLeaves src dest n (Pass.done <$> exit) := by
  cases exit with
  | error e => exact Or.inr (Or.inl ⟨e, rfl, h⟩)
  | ok exit => exact Or.inl ⟨exit, rfl, h⟩

/-- What a pass does with the text behind a separator, where a digit is in front of it
only if a group may follow. -/
theorem passLeaves_digits (sep : List UInt8) {w : List UInt8} {d : UInt8} (h : Reads gs c t)
    (hroom : ¬ Full gs c) (hsrc : src = t ++ (sep ++ d :: w)) (hdest : 16 ≤ dest.length)
    (hsep : isxdigit d = true → Separates gs c sep c') (hgoes : GoesOn 4 (d :: w)) :
    PassLeaves src dest gs.length
      (ipv6Digits src (stateAt dest gs c' (t.length + sep.length))) := by
  have hdrop : src.drop (t.length + sep.length) = d :: w := by
    rw [hsrc, ← List.append_assoc, ← List.length_append, List.drop_left]
  cases hd : isxdigit d with
  | false =>
      rw [ipv6Digits_invalid hdrop hd]
      exact passLeaves_invalid _ _
  | true =>
      have hsep := hsep hd
      obtain ⟨g, r, hw, hg, hends | ⟨hshort, r, rfl⟩⟩ := exists_group hd hgoes
      · have hcount : 2 * gs.length + 2 ≤ dest.length := by
          rw [Full] at hroom
          omega
        rw [hw] at hdrop hsrc
        rw [ipv6Digits_group hg hdrop hends hcount]
        refine Or.inr (Or.inr ⟨_, rfl, ⟨gs ++ [g], c', t ++ (sep ++ g), r,
          h.group hroom hsep hg, ?_, ?_, ?_⟩, ?_⟩)
        · rw [hsrc, List.append_assoc, List.append_assoc]
        · simpa using hends
        · rw [List.length_append, List.length_append, Nat.add_assoc]
        · rw [stateAt, List.length_append, List.length_singleton]
      · rw [hw] at hdrop hsrc
        rw [ipv6Digits_dot hg hdrop hshort]
        rcases ipv6Mapped_eq src dest gs c' (t.length + sep.length) with
            ⟨heq, hmapped, hbehind⟩ | ⟨heq, -⟩
        · rw [heq, ← List.length_append]
          refine Leaves.map_done ?_ _
          cases hsep with
          | start hnil => exact absurd hnil hmapped.ne_nil
          | colon hne => exact .quad h ⟨hroom, .colon hne c, hmapped⟩ hsrc
          | missing hfull => exact .quad h ⟨hroom, .missing hfull c, hmapped⟩ hsrc
          | double => exact absurd rfl hbehind
        · rw [heq]
          exact passLeaves_invalid _ _

/-- A pass from a state that was reached reads a group, or ends the loop. -/
theorem passLeaves_pass {w : List UInt8} (h : Reads gs c t) (hsrc : src = t ++ w)
    (hends : ∀ g ∈ gs.getLast?, Ends g w) (hdest : 16 ≤ dest.length)
    (hgoes : 0 ∈ src ∨ 40 ≤ src.length)
    (hfirst : ∀ w, src = chr ':' :: w → ∃ w', w = chr ':' :: w') :
    PassLeaves src dest gs.length (ipv6ToBinPass src (stateAt dest gs c t.length)) := by
  have hdrop : src.drop t.length = w := by rw [hsrc, List.drop_left]
  cases w with
  | nil =>
      rw [List.append_nil] at hsrc
      subst hsrc
      have hread : readByte src src.length = .error .read := by simp [readByte]
      refine Or.inr (Or.inl ⟨.read, ?_, .outside h⟩)
      simp only [ipv6ToBinPass, stateAt, hread, Exec.error_bind]
  | cons d w =>
      by_cases hstop : d = 0 ∨ Full gs c
      · exact Or.inl ⟨_, ipv6ToBinPass_left hdrop hstop, .groups h hsrc hstop⟩
      obtain ⟨hzero, hroom⟩ := not_or.mp hstop
      have hgoes : GoesOn 6 (d :: w) := by
        have hlen := h.length_le_of_room hroom
        refine .of_append (hgoes.imp (fun hmem => hsrc ▸ hmem) fun hlong => ?_) h.zero_notMem
        rw [← hsrc]
        omega
      obtain ⟨_, _, heq, hw⟩ := hgoes.exists_cons
      obtain ⟨rfl, rfl⟩ := List.cons.inj heq
      have hweaken : ∀ {k : ℕ} {l : List UInt8}, 4 ≤ k → GoesOn k l → GoesOn 4 l :=
        fun hk hl => hl.imp_right (Nat.le_trans hk)
      by_cases hcolon : d = chr ':'
      swap
      · rw [ipv6ToBinPass_none hroom hdrop hzero hcolon]
        refine passLeaves_digits [] h hroom hsrc hdest (fun hd => ?_)
          (hweaken (by decide) hgoes)
        cases hgs : gs.getLast? with
        | none =>
            obtain rfl := List.getLast?_eq_none_iff.mp hgs
            obtain ⟨rfl, -⟩ := h.eq_start
            exact .start rfl
        | some g =>
            refine .missing ⟨g, hgs, ?_⟩ c
            rcases hends g hgs with hfour | ⟨e, r, heq, he, -⟩
            · exact hfour
            · obtain ⟨rfl, -⟩ := List.cons.inj heq
              exact absurd (hd.symm.trans he) (by decide)
      subst hcolon
      obtain ⟨d, w, rfl, hw'⟩ := (hw hzero).exists_cons
      by_cases hsecond : d = chr ':'
      swap
      · rw [ipv6ToBinPass_colon hroom hdrop hsecond]
        refine passLeaves_digits [chr ':'] h hroom hsrc hdest (fun _ => ?_)
          (hweaken (by decide) (hw hzero))
        refine .colon ?_ c
        rintro rfl
        obtain ⟨-, rfl⟩ := h.eq_start
        obtain ⟨w', heq⟩ := hfirst _ hsrc
        exact hsecond (List.cons.inj heq).1
      subst hsecond
      cases c with
      | some k =>
          rw [ipv6ToBinPass_second hroom hdrop rfl]
          exact passLeaves_invalid _ _
      | none =>
          obtain ⟨d, w, rfl, -⟩ := (hw' hzero).exists_cons
          rw [ipv6ToBinPass_double hroom hdrop]
          by_cases hlast : d = 0
          · subst hlast
            rw [if_pos rfl]
            exact Or.inl ⟨_, rfl, .double h hroom hsrc⟩
          · rw [if_neg hlast]
            exact passLeaves_digits [chr ':', chr ':'] h hroom hsrc hdest
              (fun _ => .double) (hw' hzero)

theorem leaves_loop (hdest : 16 ≤ dest.length) (hgoes : 0 ∈ src ∨ 40 ≤ src.length)
    (hfirst : ∀ w, src = chr ':' :: w → ∃ w', w = chr ':' :: w') :
    Leaves src dest (loop (ipv6ToBinPass src) 9 (stateAt dest [] none 0)) := by
  apply loop_ends (I := Reached src dest) (fun st => 8 - st.count / 2)
  · rintro st ⟨gs, c, t, w, h, hsrc, hends, rfl⟩
    have hpass := passLeaves_pass h hsrc hends hdest hgoes hfirst
    rcases hpass with hdone | herror | ⟨st, hnext, hreached, hcount⟩
    · exact Or.inl hdone
    · exact Or.inr (Or.inl herror)
    · refine Or.inr (Or.inr ⟨st, hnext, hreached, ?_⟩)
      obtain ⟨gs', c', t', w', h', -, -, rfl⟩ := hreached
      have hlen := h'.length_le_eight
      simp only [stateAt] at hcount ⊢
      omega
  · exact ⟨[], none, [], src, .start, rfl, by simp, rfl⟩
  · simp [stateAt]

end Passes

/-! ## Texts that are accepted -/

/-- The text of groups, and of a dotted quad behind them. -/
inductive Written : List UInt8 → List (List UInt8) → Option ℕ → List UInt8 → Prop where
  | groups {gs : List (List UInt8)} {c : Option ℕ} {t : List UInt8} (h : Reads gs c t) :
      Written t gs c []
  | double {gs : List (List UInt8)} {t : List UInt8} (h : Reads gs none t)
      (hroom : ¬ Full gs none) : Written (t ++ [chr ':', chr ':']) gs (some gs.length) []
  | quad {gs : List (List UInt8)} {c : Option ℕ} {t sep vs : List UInt8} (h : Reads gs c t)
      (htakes : TakesQuad gs c sep) (hvs : vs.length = 4) :
      Written (t ++ (sep ++ dotted vs)) gs c vs

/-- So many bytes make an address: sixteen, or fewer with a `::`. -/
def Complete (c : Option ℕ) (count : ℕ) : Prop := if c.isSome then count < 16 else 16 ≤ count

/-- The part behind the `::` is moved inside an object of `size` bytes. -/
def Fits (c : Option ℕ) (count size : ℕ) : Prop := ∀ k ∈ c, 2 * k + 2 * (16 - count) ≤ size

instance (c : Option ℕ) (count : ℕ) : Decidable (Complete c count) :=
  inferInstanceAs (Decidable (if c.isSome then count < 16 else 16 ≤ count))

/-- The groups, the `::` and the dotted quad that `ipv6_to_bin` finds in a text. -/
structure Accepts (s : List UInt8) (gs : List (List UInt8)) (c : Option ℕ) (vs : List UInt8) :
    Prop where
  written : Written s gs c vs
  complete : Complete c (2 * gs.length + vs.length)

/-- What `ipv6_to_bin` gives for a text with these groups and bytes. -/
structure Gives (gs : List (List UInt8)) (c : Option ℕ) (vs : List UInt8) (size : ℕ)
    (res : Exec (ℤ × List UInt8)) : Prop where
  fits : Fits c (2 * gs.length + vs.length) size → ∃ out, res = .ok (0, out)
  overrun : ¬ Fits c (2 * gs.length + vs.length) size → res = .error .write

section Expand

variable {src : List UInt8} {st : Ipv6State} {c : Option ℕ}

theorem ipv6Expand_more {d : UInt8} (hmapped : st.mapped = false)
    (hread : readByte src st.pos = .ok d) (hd : d ≠ 0) :
    ipv6Expand src (.left st) = .ok (EINVAL, st.bin) := by
  simp [ipv6Expand, hmapped, hread, andThen, hd]

/-- Behind a dotted quad or in front of the null byte, the number of bytes is looked at. -/
theorem ipv6Expand_end (hend : st.mapped = true ∨ readByte src st.pos = .ok 0) :
    ipv6Expand src (.left st) =
      if -1 < st.comp then
        if 16 ≤ st.count then .ok (EINVAL, st.bin) else do
        let moved ← readBytes st.bin st.comp.toNat (16 - st.count)
        let bin ← writeBytes st.bin (st.comp.toNat + (16 - st.count)) moved
        let bin ← memzero bin st.comp.toNat (16 - st.count)
        .ok (0, bin)
      else if st.count < 16 then .ok (EINVAL, st.bin) else .ok (0, st.bin) := by
  have hmore : andThen (.ok (!st.mapped)) ((· != 0) <$> readByte src st.pos) = .ok false := by
    rcases hend with hmapped | hread
    · simp [andThen, hmapped]
    · simp [andThen, hread]
  simp only [ipv6Expand, hmore, Exec.ok_bind, Bool.false_eq_true, if_false]

theorem ipv6Expand_incomplete (hend : st.mapped = true ∨ readByte src st.pos = .ok 0)
    (hcomp : st.comp = compAt c) (hcount : ¬ Complete c st.count) :
    ipv6Expand src (.left st) = .ok (EINVAL, st.bin) := by
  rw [ipv6Expand_end hend, hcomp]
  cases c with
  | none =>
      rw [Complete] at hcount
      simp only [Option.isSome_none, Bool.false_eq_true, if_false, Nat.not_le] at hcount
      rw [if_neg (by simp [compAt]), if_pos hcount]
  | some k =>
      rw [Complete] at hcount
      simp only [Option.isSome_some, if_true, Nat.not_lt] at hcount
      rw [if_pos (compAt_iff.mpr rfl), if_pos hcount]

/-- The part behind the `::` is moved to the end, if the object is large enough. -/
theorem ipv6Expand_complete (hend : st.mapped = true ∨ readByte src st.pos = .ok 0)
    (hcomp : st.comp = compAt c) (hcount : Complete c st.count)
    (hbehind : ∀ k ∈ c, 2 * k ≤ st.count) (hbin : 16 ≤ st.bin.length) :
    (Fits c st.count st.bin.length → ∃ out, ipv6Expand src (.left st) = .ok (0, out)) ∧
      (¬ Fits c st.count st.bin.length → ipv6Expand src (.left st) = .error .write) := by
  rw [ipv6Expand_end hend, hcomp]
  cases c with
  | none =>
      rw [Complete] at hcount
      simp only [Option.isSome_none, Bool.false_eq_true, if_false] at hcount
      rw [if_neg (by simp [compAt]), if_neg (Nat.not_lt.mpr hcount)]
      refine ⟨fun _ => ⟨_, rfl⟩, fun hfits => absurd ?_ hfits⟩
      rintro k ⟨⟩
  | some k =>
      rw [Complete] at hcount
      simp only [Option.isSome_some, if_true] at hcount
      have hk := hbehind k rfl
      have hfits : Fits (some k) st.count st.bin.length ↔
          2 * k + 2 * (16 - st.count) ≤ st.bin.length := by
        simp [Fits]
      have hstart : (compAt (some k)).toNat = 2 * k := Int.toNat_natCast _
      have hread : readBytes st.bin (2 * k) (16 - st.count) = _ := readBytes_of_le (by omega)
      have hlen : ((st.bin.drop (2 * k)).take (16 - st.count)).length = 16 - st.count := by
        rw [List.length_take, List.length_drop]
        omega
      rw [if_pos (compAt_iff.mpr rfl), if_neg (Nat.not_le.mpr hcount), hstart, hread, hfits]
      simp only [Exec.ok_bind]
      constructor
      · intro hroom
        rw [writeBytes_of_le (by omega), Exec.ok_bind, memzero, writeBytes_of_le]
        · exact ⟨_, rfl⟩
        · simp only [List.length_append, List.length_take, List.length_drop,
            List.length_replicate]
          omega
      · intro hroom
        rw [writeBytes, if_neg (by omega)]
        rfl

end Expand

/-- A number of a dotted quad is a group of less than four digits. -/
theorem decimal_isGroup (v : UInt8) : IsGroup (decimal v) ∧ (decimal v).length < 4 := by
  have hlen : decimal v ≠ [] ∧ (decimal v).length < 4 := by
    rcases decimal_cases v with ⟨a, -, -, heq⟩ | ⟨a, -, -, b, -, -, heq⟩ |
      ⟨a, -, -, b, -, d, -, -, heq⟩ <;> rw [heq] <;> simp
  refine ⟨⟨hlen.1, Nat.le_of_lt hlen.2, fun c hc => ?_⟩, hlen.2⟩
  rw [isxdigit, isdigit_of_mem_decimal hc]
  rfl

section Strings

variable {s tail dest : List UInt8} {gs : List (List UInt8)} {c : Option ℕ} {vs : List UInt8}

theorem length_stateAt (pos : ℕ) (hlen : 2 * gs.length ≤ dest.length) :
    (stateAt dest gs c pos).bin.length = dest.length := by
  rw [stateAt, List.length_append, length_flatMap_groupBytes, List.length_drop]
  omega

theorem TakesQuad.quad_room {sep : List UInt8} (htakes : TakesQuad gs c sep) (pos : ℕ)
    (hdest : 16 ≤ dest.length) : 2 * gs.length + 4 ≤ (stateAt dest gs c pos).bin.length := by
  have hlen := htakes.mapped.length_le
  rw [length_stateAt _ (by omega)]
  omega

theorem Reads.le_length {t : List UInt8} (h : Reads gs c t) : ∀ k ∈ c, k ≤ gs.length := by
  rintro k rfl
  exact Nat.le_of_lt h.lt_length

/-- The loop has read a text with these groups and bytes to its end. -/
structure Finishes (gs : List (List UInt8)) (c : Option ℕ) (vs dest src : List UInt8)
    (st : Ipv6State) : Prop where
  at_end : st.mapped = true ∨ readByte src st.pos = .ok 0
  comp_eq : st.comp = compAt c
  count_eq : st.count = 2 * gs.length + vs.length
  bin_eq : st.bin = gs.flatMap groupBytes ++ vs ++ dest.drop (2 * gs.length + vs.length)

theorem Finishes.length_bin {src : List UInt8} {st : Ipv6State}
    (h : Finishes gs c vs dest src st) (hlen : 2 * gs.length + vs.length ≤ dest.length) :
    st.bin.length = dest.length := by
  rw [h.bin_eq, List.length_append, List.length_append, length_flatMap_groupBytes,
    List.length_drop]
  omega

theorem Finishes.gives {src : List UInt8} {st : Ipv6State} (h : Finishes gs c vs dest src st)
    (hlen : 2 * gs.length + vs.length ≤ 16) (hdest : 16 ≤ dest.length)
    (hcomplete : Complete c (2 * gs.length + vs.length)) (hbehind : ∀ k ∈ c, k ≤ gs.length) :
    Gives gs c vs dest.length (ipv6Expand src (.left st)) := by
  have hbin := h.length_bin (Nat.le_trans hlen hdest)
  have hexpand := ipv6Expand_complete h.at_end h.comp_eq (h.count_eq ▸ hcomplete)
    (fun k hk => by have := hbehind k hk; have := h.count_eq; omega) (hbin ▸ hdest)
  rw [h.count_eq, hbin] at hexpand
  exact ⟨hexpand.1, hexpand.2⟩

theorem finishes_groups (t w : List UInt8) :
    Finishes gs c [] dest (t ++ 0 :: w) (stateAt dest gs c t.length) where
  at_end := Or.inr (readByte_length_eq_ok.mpr ⟨w, rfl⟩)
  comp_eq := rfl
  count_eq := rfl
  bin_eq := by
    rw [List.append_nil]
    rfl

theorem finishes_double (t w : List UInt8) :
    Finishes gs (some gs.length) [] dest (t ++ chr ':' :: chr ':' :: 0 :: w)
      (stateAt dest gs (some gs.length) (t.length + 2)) where
  at_end := Or.inr (readByte_append_add t (chr ':' :: chr ':' :: 0 :: w) 2)
  comp_eq := rfl
  count_eq := rfl
  bin_eq := by
    rw [List.append_nil]
    rfl

/-- The text behind the groups is read by `ipv4_to_bin`. -/
theorem finishes_quad {t sep : List UInt8} (w : List UInt8) (htakes : TakesQuad gs c sep)
    (hdest : 16 ≤ dest.length) (hvs : vs.length = 4) :
    ∃ st, quadExit (t ++ (sep ++ (dotted vs ++ 0 :: w)))
        { stateAt dest gs c (t ++ sep).length with mapped := true } = .ok (.left st) ∧
      Finishes gs c vs dest (t ++ (sep ++ (dotted vs ++ 0 :: w))) st := by
  have hlen := htakes.mapped.length_le
  have hroom := htakes.quad_room (t ++ sep).length hdest
  have hwrite : writeBytes (stateAt dest gs c (t ++ sep).length).bin (2 * gs.length) vs =
      .ok (gs.flatMap groupBytes ++ vs ++ dest.drop (2 * gs.length + vs.length)) := by
    rw [← List.drop_drop]
    exact writeBytes_append (length_flatMap_groupBytes gs).symm
      (by rw [List.length_drop]; omega)
  have hquad : ipv4ToBin (t ++ (sep ++ (dotted vs ++ 0 :: w))) (t ++ sep).length
      (stateAt dest gs c (t ++ sep).length).bin (2 * gs.length) =
        .ok (0, gs.flatMap groupBytes ++ vs ++ dest.drop (2 * gs.length + vs.length)) := by
    rw [← List.append_assoc t sep]
    exact (ipv4ToBin_eq_ok _ (zero_notMem_dotted vs) hroom).mpr ⟨vs, hvs, rfl, hwrite⟩
  refine ⟨_, quadExit_left hquad, Or.inl rfl, rfl, ?_, rfl⟩
  simp only [stateAt, hvs]

theorem gives_groups {t w : List UInt8} (h : Reads gs c t) (hdest : 16 ≤ dest.length)
    (hcomplete : Complete c (2 * gs.length)) :
    Gives gs c [] dest.length
      (ipv6Expand (t ++ 0 :: w) (.left (stateAt dest gs c t.length))) := by
  have hlen := h.length_le_eight
  exact (finishes_groups t w).gives (by simp only [List.length_nil]; omega) hdest hcomplete
    h.le_length

theorem gives_double {t w : List UInt8} (h : Reads gs none t) (hdest : 16 ≤ dest.length)
    (hcomplete : Complete (some gs.length) (2 * gs.length)) :
    Gives gs (some gs.length) [] dest.length
      (ipv6Expand (t ++ chr ':' :: chr ':' :: 0 :: w)
        (.left (stateAt dest gs (some gs.length) (t.length + 2)))) := by
  have hlen := h.length_le_eight
  refine (finishes_double t w).gives (by simp only [List.length_nil]; omega) hdest hcomplete ?_
  rintro k ⟨⟩
  exact Nat.le_refl _

theorem gives_quad {t sep w : List UInt8} (h : Reads gs c t) (htakes : TakesQuad gs c sep)
    (hdest : 16 ≤ dest.length) (hvs : vs.length = 4)
    (hcomplete : Complete c (2 * gs.length + vs.length)) :
    Gives gs c vs dest.length
      (quadExit (t ++ (sep ++ (dotted vs ++ 0 :: w)))
        { stateAt dest gs c (t ++ sep).length with mapped := true } >>=
          ipv6Expand (t ++ (sep ++ (dotted vs ++ 0 :: w)))) := by
  have hlen := htakes.mapped.length_le
  obtain ⟨st, hexit, hfinishes⟩ := finishes_quad (t := t) w htakes hdest hvs
  rw [hexit, Exec.ok_bind]
  exact hfinishes.gives (by omega) hdest hcomplete h.le_length

/-- A string behind the groups of a mapped address is no dotted quad, or it is the rest of
an accepted text. -/
theorem quad_string {t sep r : List UInt8} (h : Reads gs c t) (htakes : TakesQuad gs c sep)
    (hr : 0 ∉ r) (hdest : 16 ≤ dest.length) :
    (∃ out, (quadExit (t ++ sep ++ (r ++ 0 :: tail))
        { stateAt dest gs c (t ++ sep).length with mapped := true } >>=
          ipv6Expand (t ++ sep ++ (r ++ 0 :: tail))) = .ok (EINVAL, out)) ∨
      ∃ vs, Accepts (t ++ sep ++ r) gs c vs ∧
        Gives gs c vs dest.length (quadExit (t ++ sep ++ (r ++ 0 :: tail))
          { stateAt dest gs c (t ++ sep).length with mapped := true } >>=
            ipv6Expand (t ++ sep ++ (r ++ 0 :: tail))) := by
  have hroom := htakes.quad_room (t ++ sep).length hdest
  obtain ⟨⟨code, bin⟩, hquad, hcode, -⟩ := ipv4ToBin_returns
    (terminated_append (t ++ sep) r tail) hroom
  by_cases hok : code = 0
  swap
  · have hexit : quadExit (t ++ sep ++ (r ++ 0 :: tail))
        { stateAt dest gs c (t ++ sep).length with mapped := true } = _ :=
      quadExit_invalid hquad hok
    rw [hexit]
    exact Or.inl ⟨bin, rfl⟩
  subst hok
  obtain ⟨vs, hvs, rfl, -⟩ := (ipv4ToBin_eq_ok _ hr hroom).mp hquad
  by_cases hcomplete : Complete c (2 * gs.length + vs.length)
  · right
    rw [List.append_assoc t sep, List.append_assoc t sep]
    exact ⟨vs, ⟨.quad h htakes hvs, hcomplete⟩, gives_quad h htakes hdest hvs hcomplete⟩
  · have hexit : quadExit (t ++ sep ++ (dotted vs ++ 0 :: tail))
        { stateAt dest gs c (t ++ sep).length with mapped := true } = _ := quadExit_left hquad
    rw [hexit, Exec.ok_bind]
    refine Or.inl ⟨_, ipv6Expand_incomplete (Or.inl rfl) rfl ?_⟩
    rw [hvs] at hcomplete
    exact hcomplete

/-- A string is not accepted, or the text read is one of the accepted ones. -/
theorem Leaves.string {exit : Exec Ipv6Exit} (h : Leaves (s ++ 0 :: tail) dest exit)
    (hs : 0 ∉ s) (hdest : 16 ≤ dest.length) :
    (∃ out, (exit >>= ipv6Expand (s ++ 0 :: tail)) = .ok (EINVAL, out)) ∨
      ∃ gs c vs, Accepts s gs c vs ∧
        Gives gs c vs dest.length (exit >>= ipv6Expand (s ++ 0 :: tail)) := by
  cases h with
  | invalid bin => exact Or.inl ⟨bin, rfl⟩
  | @groups gs c t w d h hsrc hstop =>
      obtain ⟨r, rfl, hr⟩ := append_eq_text h.zero_notMem hsrc
      cases r with
      | nil =>
          obtain ⟨rfl, rfl⟩ := List.cons.inj hr
          rw [List.append_nil]
          by_cases hcomplete : Complete c (2 * gs.length)
          · exact Or.inr ⟨gs, c, [], ⟨.groups h, hcomplete⟩, gives_groups h hdest hcomplete⟩
          · refine Or.inl ⟨_, ipv6Expand_incomplete (Or.inr ?_) rfl hcomplete⟩
            exact readByte_length_eq_ok.mpr ⟨w, rfl⟩
      | cons e r =>
          obtain ⟨rfl, rfl⟩ := List.cons.inj hr
          have hd : d ≠ 0 := fun hzero => hs (by simp [hzero])
          refine Or.inl ⟨_, ipv6Expand_more rfl ?_ hd⟩
          rw [hsrc]
          exact readByte_length_eq_ok.mpr ⟨_, rfl⟩
  | @double gs t w h hroom hsrc =>
      have hzero : 0 ∉ t ++ [chr ':', chr ':'] := by
        rw [List.mem_append, not_or]
        exact ⟨h.zero_notMem, by decide⟩
      have hsrc' : s ++ 0 :: tail = (t ++ [chr ':', chr ':']) ++ 0 :: w := by
        rw [hsrc, List.append_assoc]
        rfl
      obtain ⟨r, rfl, hr⟩ := append_eq_text hzero hsrc'
      cases r with
      | nil =>
          have hcomplete : Complete (some gs.length) (2 * gs.length) := by
            rw [Full] at hroom
            simp only [Option.isSome_none, Bool.false_eq_true, if_false] at hroom
            simp only [Complete, Option.isSome_some, if_true]
            omega
          rw [List.append_nil, List.append_assoc]
          rw [List.append_nil] at hsrc'
          exact Or.inr ⟨gs, some gs.length, [], ⟨.double h hroom, hcomplete⟩,
            gives_double h hdest hcomplete⟩
      | cons e r =>
          obtain ⟨rfl, -⟩ := List.cons.inj hr
          exact absurd (by simp) hs
  | @quad gs c t sep r h htakes hsrc =>
      have hzero : 0 ∉ t ++ sep := by
        rw [List.mem_append, not_or]
        exact ⟨h.zero_notMem, htakes.separates.zero_notMem⟩
      rw [← List.append_assoc] at hsrc
      obtain ⟨r, rfl, rfl⟩ := append_eq_text hzero hsrc
      have hr : 0 ∉ r := fun hmem => hs (List.mem_append_right _ hmem)
      rw [List.append_assoc (t ++ sep)]
      rcases quad_string h htakes hr hdest with hinvalid | ⟨vs, haccepts, hgives⟩
      · exact Or.inl hinvalid
      · exact Or.inr ⟨gs, c, vs, haccepts, hgives⟩
  | outside h => exact absurd (by simp) h.zero_notMem

/-- A digit or two colons are in front. -/
def FrontOk (s : List UInt8) : Prop :=
  (∃ d s', s = d :: s' ∧ isxdigit d = true) ∨ ∃ s', s = chr ':' :: chr ':' :: s'

theorem FrontOk.append {t : List UInt8} (h : FrontOk t) (r : List UInt8) : FrontOk (t ++ r) := by
  rcases h with ⟨d, t', rfl, hd⟩ | ⟨t', rfl⟩
  · exact Or.inl ⟨d, t' ++ r, rfl, hd⟩
  · exact Or.inr ⟨t' ++ r, rfl⟩

theorem FrontOk.of_append {t r : List UInt8} (h : FrontOk (t ++ r)) (hlen : 2 ≤ t.length) :
    FrontOk t := by
  match t, hlen with
  | d :: e :: t, _ =>
      rcases h with ⟨d', s', heq, hd⟩ | ⟨s', heq⟩
      · exact Or.inl ⟨d, e :: t, rfl, (List.cons.inj heq).1 ▸ hd⟩
      · obtain ⟨hd, heq⟩ := List.cons.inj heq
        obtain ⟨he, -⟩ := List.cons.inj heq
        exact Or.inr ⟨t, by rw [hd, he]⟩

theorem FrontOk.first {t w : List UInt8} (h : FrontOk t) (heq : t = chr ':' :: w) :
    ∃ w', w = chr ':' :: w' := by
  rcases h with ⟨d, t', rfl, hd⟩ | ⟨t', rfl⟩
  · rw [(List.cons.inj heq).1] at hd
    exact absurd hd (by decide)
  · exact ⟨t', (List.cons.inj heq).2.symm⟩

/-- Groups that are read have a digit or two colons in front. -/
theorem Reads.front {t : List UInt8} (h : Reads gs c t) (hgs : gs ≠ []) : FrontOk t := by
  induction h with
  | start => exact absurd rfl hgs
  | @group gs c c' t sep g h hroom hsep hg ih =>
      cases gs with
      | cons l gs => exact (ih (List.cons_ne_nil l gs)).append _
      | nil =>
          obtain ⟨rfl, rfl⟩ := h.eq_start
          obtain ⟨d, g', rfl, hd⟩ := hg.exists_cons
          cases hsep with
          | start => exact Or.inl ⟨d, g', rfl, hd⟩
          | colon hne => exact absurd rfl hne
          | missing hfull => exact Or.inl ⟨d, g', rfl, hd⟩
          | double => exact Or.inr ⟨_, rfl⟩

theorem Written.front (h : Written s gs c vs) : s = [] ∨ FrontOk s := by
  cases h with
  | groups h =>
      by_cases hgs : gs = []
      · subst hgs
        exact Or.inl h.eq_start.2
      · exact Or.inr (h.front hgs)
  | @double gs t h hroom =>
      by_cases hgs : gs = []
      · subst hgs
        obtain ⟨-, rfl⟩ := h.eq_start
        exact Or.inr (Or.inr ⟨[], rfl⟩)
      · exact Or.inr ((h.front hgs).append _)
  | quad h htakes hvs => exact Or.inr ((h.front htakes.mapped.ne_nil).append _)

/-- Behind the check for a colon in front, the loop is run. -/
theorem ipv6ToBin_eq {src : List UInt8} (hgoes : GoesOn 2 src)
    (hfirst : ∀ w, src = chr ':' :: w → ∃ w', w = chr ':' :: w') :
    ipv6ToBin src dest =
      loop (ipv6ToBinPass src) 9 (stateAt dest [] none 0) >>= ipv6Expand src := by
  obtain ⟨d, w, rfl, -⟩ := hgoes.exists_cons
  have hgood : andThen (.ok (d == chr ':')) ((· != chr ':') <$> readByte (d :: w) 1) =
      .ok false := by
    by_cases hd : d = chr ':'
    · subst hd
      obtain ⟨w, rfl⟩ := hfirst w rfl
      rfl
    · simp [andThen, hd]
  simp only [ipv6ToBin, readByte_cons_zero, hgood, Exec.ok_bind, Bool.false_eq_true, if_false]
  rfl

theorem ipv6ToBin_colon {d : UInt8} {w : List UInt8} (hd : d ≠ chr ':') :
    ipv6ToBin (chr ':' :: d :: w) dest = .ok (EINVAL, dest) := by
  simp [ipv6ToBin, andThen, hd]

theorem first_or_colon {src : List UInt8} (hgoes : GoesOn 2 src) :
    (∀ w, src = chr ':' :: w → ∃ w', w = chr ':' :: w') ∨
      ∃ d w, src = chr ':' :: d :: w ∧ d ≠ chr ':' := by
  obtain ⟨d, w, rfl, hw⟩ := hgoes.exists_cons
  by_cases hd : d = chr ':'
  · subst hd
    obtain ⟨e, w, rfl, -⟩ := (hw (by decide)).exists_cons
    by_cases he : e = chr ':'
    · subst he
      left
      rintro _ ⟨⟩
      exact ⟨w, rfl⟩
    · exact Or.inr ⟨e, w, rfl, he⟩
  · left
    rintro w' heq
    exact absurd (List.cons.inj heq).1 hd

theorem Accepts.finishes (h : Accepts s gs c vs) (tail : List UInt8) (hdest : 16 ≤ dest.length) :
    ∃ st, ipv6ToBin (s ++ 0 :: tail) dest = ipv6Expand (s ++ 0 :: tail) (.left st) ∧
      Finishes gs c vs dest (s ++ 0 :: tail) st := by
  have hgoes : GoesOn 2 (s ++ 0 :: tail) := Or.inl (by simp)
  have hfirst : ∀ w, s ++ 0 :: tail = chr ':' :: w → ∃ w', w = chr ':' :: w' := by
    intro w heq
    rcases h.written.front with rfl | hfront
    · cases heq
    · exact (hfront.append _).first heq
  rw [ipv6ToBin_eq hgoes hfirst]
  obtain ⟨hwritten, hcomplete⟩ := h
  cases hwritten with
  | groups h =>
      have hlen := h.length_le_eight
      obtain ⟨budget, hbudget⟩ : ∃ budget, 9 = gs.length + (budget + 1) :=
        ⟨8 - gs.length, by omega⟩
      have hends : ∀ g ∈ gs.getLast?, Ends g (0 :: tail) := fun g _ =>
        Or.inr ⟨0, tail, rfl, by decide, by decide⟩
      rw [hbudget, h.run hdest rfl hends,
        loop_done (ipv6ToBinPass_left (List.drop_left ..) (Or.inl rfl))]
      exact ⟨_, rfl, finishes_groups s tail⟩
  | @double gs t h hroom =>
      have hlen := h.length_le_eight
      obtain ⟨budget, hbudget⟩ : ∃ budget, 9 = gs.length + (budget + 1) :=
        ⟨8 - gs.length, by omega⟩
      have hsrc : t ++ [chr ':', chr ':'] ++ 0 :: tail = t ++ chr ':' :: chr ':' :: 0 :: tail :=
        List.append_assoc t _ _
      have hends : ∀ g ∈ gs.getLast?, Ends g (chr ':' :: chr ':' :: 0 :: tail) := fun g _ =>
        Or.inr ⟨chr ':', _, rfl, by decide, by decide⟩
      have hdrop : (t ++ chr ':' :: chr ':' :: 0 :: tail).drop t.length = _ := List.drop_left ..
      have hpass : ipv6ToBinPass _ (stateAt dest gs none t.length) = _ :=
        ipv6ToBinPass_double hroom hdrop
      rw [if_pos rfl] at hpass
      rw [hsrc, hbudget, h.run hdest rfl hends, loop_done hpass]
      exact ⟨_, rfl, finishes_double t tail⟩
  | @quad gs c t sep vs h htakes hvs =>
      obtain ⟨v, w, vs', rfl⟩ : ∃ v w vs', vs = v :: w :: vs' := by
        match vs, hvs with
        | v :: w :: vs', _ => exact ⟨v, w, vs', rfl⟩
      have hsrc : t ++ (sep ++ dotted (v :: w :: vs')) ++ 0 :: tail =
          t ++ (sep ++ (dotted (v :: w :: vs') ++ 0 :: tail)) := by
        rw [List.append_assoc, List.append_assoc]
      obtain ⟨hgroup, hshort⟩ := decimal_isGroup v
      obtain ⟨st, hexit, hfinishes⟩ := finishes_quad (t := t) tail htakes hdest hvs
      have hfirst : t ++ (sep ++ (dotted (v :: w :: vs') ++ 0 :: tail)) =
          t ++ (sep ++ (decimal v ++ chr '.' :: (dotted (w :: vs') ++ 0 :: tail))) := by
        rw [dotted, List.append_assoc]
        rfl
      have hrun := h.run_quad htakes hdest hgroup hshort hfirst
      rw [hsrc, hrun, hexit]
      exact ⟨st, rfl, hfinishes⟩

theorem Written.le_length (h : Written s gs c vs) : ∀ k ∈ c, k ≤ gs.length := by
  cases h with
  | groups h => exact h.le_length
  | double h hroom =>
      rintro k ⟨⟩
      exact Nat.le_refl _
  | quad h htakes hvs => exact h.le_length

theorem Written.count_le (h : Written s gs c vs) : 2 * gs.length + vs.length ≤ 16 := by
  cases h with
  | groups h =>
      have := h.length_le_eight
      simp only [List.length_nil]
      omega
  | double h hroom =>
      have := h.length_le_eight
      simp only [List.length_nil]
      omega
  | quad h htakes hvs =>
      have := htakes.mapped.length_le
      omega

/-- What `ipv6_to_bin` does with a text that is accepted. -/
theorem Accepts.gives (h : Accepts s gs c vs) (tail : List UInt8) (hdest : 16 ≤ dest.length) :
    Gives gs c vs dest.length (ipv6ToBin (s ++ 0 :: tail) dest) := by
  obtain ⟨st, hrun, hfinishes⟩ := h.finishes tail hdest
  rw [hrun]
  exact hfinishes.gives h.written.count_le hdest h.complete h.written.le_length

theorem ipv6ToBin_string (hs : 0 ∉ s) (tail : List UInt8) (hdest : 16 ≤ dest.length) :
    (∃ out, ipv6ToBin (s ++ 0 :: tail) dest = .ok (EINVAL, out)) ∨
      ∃ gs c vs, Accepts s gs c vs := by
  have hmem : 0 ∈ s ++ 0 :: tail := by simp
  rcases first_or_colon (Or.inl hmem : GoesOn 2 (s ++ 0 :: tail)) with hfirst | ⟨d, w, hsrc, hd⟩
  · rw [ipv6ToBin_eq (Or.inl hmem) hfirst]
    exact ((leaves_loop hdest (Or.inl hmem) hfirst).string hs hdest).imp_right
      fun ⟨gs, c, vs, haccepts, _⟩ => ⟨gs, c, vs, haccepts⟩
  · rw [hsrc, ipv6ToBin_colon hd]
    exact Or.inl ⟨dest, rfl⟩

/-- `ipv6_to_bin` returns 0 for the accepted texts that fit. -/
theorem ipv6ToBin_zero_iff (hs : 0 ∉ s) (tail : List UInt8) (hdest : 16 ≤ dest.length) :
    (∃ out, ipv6ToBin (s ++ 0 :: tail) dest = .ok (0, out)) ↔
      ∃ gs c vs, Accepts s gs c vs ∧ Fits c (2 * gs.length + vs.length) dest.length := by
  constructor
  · rintro ⟨out, hout⟩
    rcases ipv6ToBin_string hs tail hdest with ⟨out', hinvalid⟩ | ⟨gs, c, vs, haccepts⟩
    · rw [hinvalid] at hout
      exact absurd (Prod.mk.inj (Except.ok.inj hout)).1 (by decide)
    · refine ⟨gs, c, vs, haccepts, by_contra fun hfits => ?_⟩
      rw [(haccepts.gives tail hdest).overrun hfits] at hout
      cases hout
  · rintro ⟨gs, c, vs, haccepts, hfits⟩
    exact (haccepts.gives tail hdest).fits hfits

/-- `ipv6_to_bin` stays inside its objects if the accepted texts fit. -/
theorem ipv6ToBin_ok_iff (hs : 0 ∉ s) (tail : List UInt8) (hdest : 16 ≤ dest.length) :
    (∃ res, ipv6ToBin (s ++ 0 :: tail) dest = .ok res) ↔
      ∀ gs c vs, Accepts s gs c vs → Fits c (2 * gs.length + vs.length) dest.length := by
  constructor
  · rintro ⟨res, hres⟩ gs c vs haccepts
    by_contra hfits
    rw [(haccepts.gives tail hdest).overrun hfits] at hres
    cases hres
  · intro hall
    rcases ipv6ToBin_string hs tail hdest with ⟨out, hinvalid⟩ | ⟨gs, c, vs, haccepts⟩
    · exact ⟨_, hinvalid⟩
    · obtain ⟨out, hout⟩ := (haccepts.gives tail hdest).fits (hall gs c vs haccepts)
      exact ⟨_, hout⟩

end Strings

end Hlibc.Inet
