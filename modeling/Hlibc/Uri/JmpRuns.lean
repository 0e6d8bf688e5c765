import Hlibc.Uri.AddressRules
import Hlibc.Uri.Recognition
import Hlibc.Uri.Jmp

/-!
# Runs of `uri_jmp.c`

Every jump goes to a later label, or back to the same one behind a byte that was read; so
the budget of the machine decides nothing, and a run from a label is the run from where the
next jump goes.
-/

set_option autoImplicit false

namespace Hlibc.Uri.Jmp

open Grammar

/-! ## Jumps -/

/-- A jump from a label goes to a later one, or on from a byte that was read to the same. -/
def Advances (src : List UInt8) (label : Label) (pos : ℕ)
    (x : Exec (Pass State (ℤ × UriSegments))) : Prop :=
  ∀ st, x = .ok (.next st) → label.ctorIdx < st.label.ctorIdx ∨
    st.label = label ∧ pos < st.pos ∧ pos < src.length

namespace Advances

variable {src : List UInt8} {st : State} {label label' : Label} {pos pos' : ℕ}
  {x y : Exec (Pass State (ℤ × UriSegments))}

theorem later (h : label.ctorIdx < label'.ctorIdx) :
    Advances src label pos (State.goto st label' pos') := by
  rintro _ ⟨⟩
  exact Or.inl h

theorem again (hpos : pos < pos') (hlt : pos < src.length) :
    Advances src label pos (State.goto st label pos') := by
  rintro _ ⟨⟩
  exact Or.inr ⟨rfl, hpos, hlt⟩

theorem error : Advances src label pos (State.error st) := by
  rintro _ ⟨⟩

theorem finish : Advances src label pos (State.finish st) := by
  rintro _ ⟨⟩

theorem ite {p : Prop} [Decidable p] (hx : Advances src label pos x)
    (hy : Advances src label pos y) : Advances src label pos (if p then x else y) := by
  split
  · exact hx
  · exact hy

theorem bind {α : Type} {a : Exec α} {f : α → Exec (Pass State (ℤ × UriSegments))}
    (hf : ∀ v, a = .ok v → Advances src label pos (f v)) :
    Advances src label pos (a >>= f) := by
  intro st h
  obtain ⟨v, hv, h⟩ := Exec.bind_eq_ok.mp h
  exact hf v hv st h

theorem read {f : UInt8 → Exec (Pass State (ℤ × UriSegments))}
    (hf : ∀ c, pos < src.length → Advances src label pos (f c)) :
    Advances src label pos (readByte src pos >>= f) :=
  bind fun c hc => hf c (List.getElem?_eq_some_iff.mp (readByte_eq_ok.mp hc)).1

theorem pct {last : ℕ} {dest : UriSegments}
    (h : label.ctorIdx < label'.ctorIdx ∨ label' = label ∧ pos < src.length) :
    Advances src label pos (State.gotoPct src
      { label := label, pos := pos, last := last, dest := dest } label') := by
  refine bind fun v hv => ite ?_ error
  have hpos : pos < v.2 := by
    obtain ⟨c, -, hv⟩ := Exec.bind_eq_ok.mp hv
    split at hv
    · obtain ⟨c, -, hv⟩ := Exec.bind_eq_ok.mp hv
      rw [← Except.ok.inj hv]
      exact (by omega : pos < pos + 1 + 2)
    · rw [← Except.ok.inj hv]
      exact (by omega : pos < pos + 1 + 1)
  rcases h with hlater | ⟨rfl, hlt⟩
  · exact later hlater
  · exact again hpos hlt

end Advances

theorem step_advances (src : List UInt8) (label : Label) (pos last : ℕ) (dest : UriSegments) :
    Advances src label pos
      (step src { label := label, pos := pos, last := last, dest := dest }) := by
  cases label with
  | scheme => exact .read fun c _ => .ite (.later (by decide)) (.later (by decide))
  | schemeLoop =>
      exact .read fun c hlt => .ite (.again (Nat.lt_succ_self pos) hlt)
        (.ite (.later (by decide)) (.later (by decide)))
  | authority => exact .bind fun v _ => .ite (.later (by decide)) (.later (by decide))
  | userinfo =>
      exact .read fun c hlt => .ite (.again (Nat.lt_succ_self pos) hlt)
        (.ite (.pct (Or.inr ⟨rfl, hlt⟩)) (.ite (.later (by decide)) (.later (by decide))))
  | host => exact .read fun c _ => .ite (.later (by decide)) (.later (by decide))
  | hostIpvf => exact .read fun c _ => .ite (.later (by decide)) (.later (by decide))
  | hostIpvfHex => exact .read fun c _ => .ite (.later (by decide)) .error
  | hostIpvfHexLoop =>
      exact .read fun c hlt => .ite (.again (Nat.lt_succ_self pos) hlt)
        (.ite (.later (by decide)) .error)
  | hostIpvfTail => exact .read fun c _ => .ite (.later (by decide)) .error
  | hostIpvfTailLoop =>
      exact .read fun c hlt => .ite (.again (Nat.lt_succ_self pos) hlt)
        (.ite (.later (by decide)) .error)
  | hostIpv6 => exact .bind fun v _ => .ite (.later (by decide)) .error
  | hostIpv4 =>
      exact .bind fun v _ => .ite
        (.bind fun c _ => .ite (.later (by decide)) (.later (by decide))) (.later (by decide))
  | hostName =>
      exact .read fun c hlt => .ite (.again (Nat.lt_succ_self pos) hlt)
        (.ite (.pct (Or.inr ⟨rfl, hlt⟩)) (.later (by decide)))
  | hostEnd => exact .read fun c _ => .ite (.later (by decide)) (.later (by decide))
  | port =>
      exact .read fun c hlt => .ite (.again (Nat.lt_succ_self pos) hlt) (.later (by decide))
  | path =>
      exact .ite (.read fun c _ => .ite (.later (by decide)) (.later (by decide)))
        (.bind fun v _ => .ite .error (.ite (.later (by decide)) (.later (by decide))))
  | pathNoscheme =>
      exact .read fun c _ => .ite (.later (by decide)) (.ite (.pct (Or.inl (by decide)))
        (.ite (.later (by decide)) (.later (by decide))))
  | pathSegments =>
      exact .read fun c hlt => .ite (.again (Nat.lt_succ_self pos) hlt)
        (.ite (.pct (Or.inr ⟨rfl, hlt⟩)) (.later (by decide)))
  | pathEmpty =>
      exact .read fun c _ => .ite (.later (by decide))
        (.ite (.later (by decide)) (.ite .finish .error))
  | query =>
      exact .read fun c hlt => .ite (.again (Nat.lt_succ_self pos) hlt)
        (.ite (.pct (Or.inr ⟨rfl, hlt⟩)) (.later (by decide)))
  | queryEnd => exact .read fun c _ => .ite (.later (by decide)) (.ite .finish .error)
  | fragment =>
      exact .read fun c hlt => .ite (.again (Nat.lt_succ_self pos) hlt)
        (.ite (.pct (Or.inr ⟨rfl, hlt⟩)) (.ite .finish .error))

/-! ## Runs -/

/-- The machine from a label on. -/
def run (src : List UInt8) (label : Label) (pos last : ℕ) (dest : UriSegments) :
    Exec (ℤ × UriSegments) :=
  loop (step src) (24 * (src.length + 1))
    { label := label, pos := pos, last := last, dest := dest }

section Runs

variable {src : List UInt8} {label label' : Label} {pos last pos' last' : ℕ}
  {dest dest' : UriSegments}

/-- The labels that are left, and the bytes that are left for this one. -/
def rest (src : List UInt8) (st : State) : ℕ :=
  (21 - st.label.ctorIdx) * (src.length + 1) + (src.length - st.pos)

theorem rest_lt (src : List UInt8) (st : State) : rest src st < 22 * (src.length + 1) := by
  have hmul : (21 - st.label.ctorIdx) * (src.length + 1) ≤ 21 * (src.length + 1) :=
    Nat.mul_le_mul_right _ (by omega)
  rw [rest]
  omega

theorem rest_decreases (src : List UInt8) (st st' : State)
    (h : step src st = .ok (.next st')) : rest src st' < rest src st := by
  obtain ⟨label, pos, last, dest⟩ := st
  rw [rest, rest]
  rcases step_advances src label pos last dest st' h with hlater | ⟨hsame, hpos, hlt⟩
  · have hlast : st'.label.ctorIdx ≤ 21 := by
      cases st'.label <;> decide
    have hmul : (21 - st'.label.ctorIdx + 1) * (src.length + 1) ≤
        (21 - label.ctorIdx) * (src.length + 1) :=
      Nat.mul_le_mul_right _ (by omega)
    rw [Nat.add_mul, Nat.one_mul] at hmul
    simp only
    omega
  · rw [hsame]
    simp only
    omega

theorem run_next (h : step src { label := label, pos := pos, last := last, dest := dest } =
    .ok (.next { label := label', pos := pos', last := last', dest := dest' })) :
    run src label pos last dest = run src label' pos' last' dest' := by
  have hlt := rest_lt src { label := label', pos := pos', last := last', dest := dest' }
  obtain ⟨budget, hbudget⟩ : ∃ k, 24 * (src.length + 1) = k + 1 :=
    ⟨24 * (src.length + 1) - 1, by omega⟩
  rw [run, hbudget, loop_next h, run]
  exact loop_budget (rest src) (rest_decreases src) (by omega) (by omega)

theorem run_done {r : ℤ × UriSegments}
    (h : step src { label := label, pos := pos, last := last, dest := dest } = .ok (.done r)) :
    run src label pos last dest = .ok r :=
  loop_done h _

theorem run_error {e : Fault}
    (h : step src { label := label, pos := pos, last := last, dest := dest } = .error e) :
    run src label pos last dest = .error e :=
  loop_error h _

end Runs

/-! ## Case lists -/

theorem contains_range {s : String} {lo hi : Char} {n : ℕ}
    (hs : ascii s = (List.range n).map fun i => UInt8.ofNat ((chr lo).toNat + i))
    (hn : (chr lo).toNat + n = (chr hi).toNat + 1) (c : UInt8) :
    (ascii s).contains c = inRange lo hi c := by
  have hhi := UInt8.toNat_lt (chr hi)
  rw [Bool.eq_iff_iff, List.contains_iff_mem, hs, List.mem_map, inRange, decide_eq_true_eq,
    UInt8.le_iff_toNat_le, UInt8.le_iff_toNat_le]
  constructor
  · rintro ⟨i, hi, rfl⟩
    have hlt := List.mem_range.mp hi
    rw [UInt8.toNat_ofNat', Nat.mod_eq_of_lt (by omega)]
    omega
  · intro hc
    refine ⟨c.toNat - (chr lo).toNat, List.mem_range.mpr (by omega), ?_⟩
    rw [Nat.add_sub_cancel' hc.1, UInt8.ofNat_toNat]

theorem alpha_eq (c : UInt8) : alpha c = isAlpha c := by
  have hupper : alphaUpper c = inRange 'A' 'Z' c :=
    contains_range (n := 26) (by decide) (by decide) c
  have hlower : alphaLower c = inRange 'a' 'z' c :=
    contains_range (n := 26) (by decide) (by decide) c
  rw [alpha, hupper, hlower, isAlpha, Bool.or_comm]

theorem digit_eq (c : UInt8) : digit c = isdigit c :=
  contains_range (n := 10) (by decide) (by decide) c

theorem hexdigit_eq (c : UInt8) : hexdigit c = isxdigit c := by
  have hlists : ascii "0123456789abcdefABCDEF" =
      ascii "0123456789" ++ ascii "abcdef" ++ ascii "ABCDEF" := by decide
  have hlower : (ascii "abcdef").contains c = inRange 'a' 'f' c :=
    contains_range (n := 6) (by decide) (by decide) c
  have hupper : (ascii "ABCDEF").contains c = inRange 'A' 'F' c :=
    contains_range (n := 6) (by decide) (by decide) c
  rw [hexdigit, hlists, List.contains_append, List.contains_append, hlower, hupper, ← digit,
    digit_eq]
  rfl

theorem unreserved_eq (c : UInt8) : unreserved c = isUnreserved c := by
  have hlist : ascii "-._~" = [chr '-', chr '.', chr '_', chr '~'] := rfl
  rw [unreserved, alpha_eq, digit_eq, isUnreserved, hlist]
  simp only [List.contains_cons, List.contains_nil, Bool.or_false, Bool.or_assoc]

theorem pchar_eq (c : UInt8) : pchar c = isPchar isSubDelim c := by
  have hlist : ascii ":@" = [chr ':', chr '@'] := rfl
  rw [pchar, unreserved_eq, isPchar, hlist, Bool.or_comm (subdelims c)]
  simp only [List.contains_cons, List.contains_nil, Bool.or_false, Bool.or_assoc]
  rfl

section Tests

variable (c : UInt8)

theorem scheme_test :
    (alpha c || digit c || c == chr '+' || c == chr '-' || c == chr '.') = isSchemeChar c := by
  rw [alpha_eq, digit_eq, isSchemeChar]

theorem userinfo_test :
    (unreserved c || subdelims c || c == chr ':') = isUserinfoChar isSubDelim c := by
  rw [unreserved_eq]
  rfl

theorem name_test : (unreserved c || subdelims c) = isNameChar isSubDelim c := by
  rw [unreserved_eq]
  rfl

theorem noscheme_test :
    (unreserved c || subdelims c || c == chr '@') = isNcChar isSubDelim c := by
  rw [unreserved_eq]
  rfl

theorem path_test : (pchar c || c == chr '/') = isPathChar isSubDelim c := by
  rw [pchar_eq, isPathChar]

theorem query_test : (pchar c || c == chr '/' || c == chr '?') = isQueryChar isSubDelim c := by
  rw [pchar_eq, isQueryChar]

end Tests

/-! ## Percent-encoded characters -/

section Loops

variable {src w x y : List UInt8} {label : Label} {pos last : ℕ} {dest : UriSegments}
  {q : UInt8 → Bool}

/-- A jump behind a percent sign goes on behind two hexadecimal digits, or to the error. -/
theorem gotoPct_eq (h : StringAt src pos (chr '%' :: w)) (label' : Label) :
    State.gotoPct src { label := label, pos := pos, last := last, dest := dest } label' =
      if startsPct (chr '%' :: w) then
        .ok (.next { label := label', pos := pos + 3, last := last, dest := dest })
      else .ok (.done (EINVAL, dest)) := by
  have hzero : isxdigit 0 = false := by decide
  have hfirst := h.tail.read
  match w, h with
  | [], h =>
      rw [List.headD_nil] at hfirst
      simp [State.gotoPct, pctEncMove, hfirst, hexdigit_eq, hzero, startsPct, State.error]
  | [a], h =>
      have hsecond := h.tail.tail.read
      rw [List.headD_nil] at hsecond
      rw [List.headD_cons] at hfirst
      by_cases ha : isxdigit a = true <;>
        simp [State.gotoPct, pctEncMove, hfirst, hsecond, hexdigit_eq, ha, hzero, startsPct,
          State.error]
  | a :: b :: w, h =>
      have hsecond := h.tail.tail.read
      rw [List.headD_cons] at hfirst hsecond
      by_cases ha : isxdigit a = true <;> by_cases hb : isxdigit b = true <;>
        simp [State.gotoPct, pctEncMove, hfirst, hsecond, hexdigit_eq, ha, hb, startsPct,
          State.error, State.goto]

theorem run_pct (label' : Label) (h : StringAt src pos (chr '%' :: w))
    (hstep : step src { label := label, pos := pos, last := last, dest := dest } =
      State.gotoPct src { label := label, pos := pos, last := last, dest := dest } label') :
    run src label pos last dest =
      if startsPct (chr '%' :: w) then run src label' (pos + 3) last dest
      else .ok (EINVAL, dest) := by
  rw [gotoPct_eq h label'] at hstep
  by_cases hpair : startsPct (chr '%' :: w) = true
  · rw [if_pos hpair] at hstep ⊢
    exact run_next hstep
  · rw [if_neg hpair] at hstep ⊢
    exact run_done hstep

/-! ## Labels that jump to themselves -/

/-- The labels that take the characters of a class. -/
def charClass : Label → Option (UInt8 → Bool)
  | .schemeLoop => some isSchemeChar
  | .hostIpvfHexLoop => some isxdigit
  | .hostIpvfTailLoop => some (isUserinfoChar isSubDelim)
  | .port => some isdigit
  | _ => none

/-- The labels that take the characters of a class and percent-encoded ones. -/
def unitClass : Label → Option (UInt8 → Bool)
  | .userinfo => some (isUserinfoChar isSubDelim)
  | .hostName => some (isNameChar isSubDelim)
  | .pathSegments => some (isPathChar isSubDelim)
  | .query => some (isQueryChar isSubDelim)
  | .fragment => some (isQueryChar isSubDelim)
  | _ => none

theorem unitClass_hex (hq : unitClass label = some q) (c : UInt8) (hc : isxdigit c = true) :
    q c = true := by
  cases label <;> cases hq
  · exact userinfoUnits_hex isSubDelim c hc
  · exact nameUnits_hex isSubDelim c hc
  · exact pathUnits_hex isSubDelim c hc
  · exact queryUnits_hex isSubDelim c hc
  · exact queryUnits_hex isSubDelim c hc

/-- No class has the end of the text or the percent sign. -/
theorem unitClass_marks (hq : unitClass label = some q) : q 0 = false ∧ q (chr '%') = false := by
  cases label <;> cases hq <;> decide

theorem run_char {c : UInt8} (hq : charClass label = some q ∨ unitClass label = some q)
    (hread : readByte src pos = .ok c) (hc : q c = true) :
    run src label pos last dest = run src label (pos + 1) last dest := by
  refine run_next ?_
  rcases hq with hq | hq
  · cases label <;> cases hq
    · simp only [step, hread, Exec.ok_bind, scheme_test, hc, if_true, State.goto]
    · simp only [step, hread, Exec.ok_bind, hexdigit_eq, hc, if_true, State.goto]
    · simp only [step, hread, Exec.ok_bind, userinfo_test, hc, if_true, State.goto]
    · simp only [step, hread, Exec.ok_bind, digit_eq, hc, if_true, State.goto]
  · cases label <;> cases hq
    · simp only [step, hread, Exec.ok_bind, userinfo_test, hc, if_true, State.goto]
    · simp only [step, hread, Exec.ok_bind, name_test, hc, if_true, State.goto]
    · simp only [step, hread, Exec.ok_bind, path_test, hc, if_true, State.goto]
    · simp only [step, hread, Exec.ok_bind, query_test, hc, if_true, State.goto]
    · simp only [step, hread, Exec.ok_bind, query_test, hc, if_true, State.goto]

/-- Behind a percent sign two hexadecimal digits are taken, or there is an error. -/
theorem run_encoded (hq : unitClass label = some q) (h : StringAt src pos (chr '%' :: w)) :
    run src label pos last dest =
      if startsPct (chr '%' :: w) then run src label (pos + 3) last dest
      else .ok (EINVAL, dest) := by
  have hread : readByte src pos = .ok (chr '%') := h.read
  have hmark := (unitClass_marks hq).2
  refine run_pct label h ?_
  cases label <;> cases hq
  · simp only [step, hread, Exec.ok_bind, userinfo_test, hmark, Bool.false_eq_true, if_false,
      if_true]
  · simp only [step, hread, Exec.ok_bind, name_test, hmark, Bool.false_eq_true, if_false, if_true]
  · simp only [step, hread, Exec.ok_bind, path_test, hmark, Bool.false_eq_true, if_false, if_true]
  · simp only [step, hread, Exec.ok_bind, query_test, hmark, Bool.false_eq_true, if_false, if_true]
  · simp only [step, hread, Exec.ok_bind, query_test, hmark, Bool.false_eq_true, if_false, if_true]

/-- A label that takes characters of a class takes all in front. -/
theorem run_chars (label : Label) (hq : charClass label = some q) (h : StringAt src pos w)
    (hscan : scan (startsChar q) w = (x, y)) (last : ℕ) (dest : UriSegments) :
    run src label pos last dest = run src label (pos + x.length) last dest := by
  obtain ⟨hx, -, rfl⟩ := scan_chars_iff.mp hscan
  clear hscan
  induction x generalizing pos with
  | nil => rfl
  | cons c x ih =>
      rw [run_char (Or.inl hq) h.read (hx c List.mem_cons_self),
        ih (fun d hd => hx d (List.mem_cons_of_mem c hd)) h.tail, List.length_cons,
        Nat.add_comm x.length, Nat.add_assoc]

/-- A label that takes units takes all in front, and goes to the error at a percent sign that
is left. -/
theorem run_units (label : Label) (hq : unitClass label = some q) (h : StringAt src pos w)
    (hscan : scan (startsUnit q) w = (x, y)) (last : ℕ) (dest : UriSegments) :
    y.headD 0 = chr '%' ∧ run src label pos last dest = .ok (EINVAL, dest) ∨
      y.headD 0 ≠ chr '%' ∧ q (y.headD 0) = false ∧
        run src label pos last dest = run src label (pos + x.length) last dest := by
  obtain ⟨hx, hstop, rfl⟩ := (scan_units_iff (unitClass_hex hq)).mp hscan
  clear hscan
  have hall : ∀ pos, StringAt src pos (x ++ y) → run src label pos last dest =
      if y.headD 0 = chr '%' then .ok (EINVAL, dest)
      else run src label (pos + x.length) last dest := by
    refine kstar_induction (motive := fun x => ∀ pos, StringAt src pos (x ++ y) →
      run src label pos last dest = if y.headD 0 = chr '%' then .ok (EINVAL, dest)
        else run src label (pos + x.length) last dest) ?_ ?_ hx
    · intro pos h
      by_cases hhead : y.headD 0 = chr '%'
      · obtain ⟨r, rfl⟩ := exists_cons_of_headD hhead (by decide)
        have hnot := (Bool.or_eq_false_iff.mp hstop).2
        rw [run_encoded hq h, if_pos hhead]
        exact if_neg (by rw [hnot]; decide)
      · rw [if_neg hhead]
        rfl
    · intro u hu z _ ih pos h
      rw [List.append_assoc] at h
      rw [List.length_append, ← Nat.add_assoc, ← ih _ h.append]
      rcases (Language.mem_add _ _ _).mp hu with ⟨c, rfl, hc⟩ | hu
      · exact run_char (Or.inr hq) h.read hc
      · obtain ⟨a, b, rfl, ha, hb⟩ := mem_pctEncoded.mp hu
        have hpair : startsPct (chr '%' :: a :: b :: (z ++ y)) = true := by
          rw [startsPct_cons, ha, hb]
          rfl
        exact (run_encoded hq h).trans (if_pos hpair)
  rw [hall pos h]
  by_cases hhead : y.headD 0 = chr '%'
  · exact Or.inl ⟨hhead, if_pos hhead⟩
  · refine Or.inr ⟨hhead, ?_, if_neg hhead⟩
    cases y with
    | nil => exact (unitClass_marks hq).1
    | cons c y => exact (Bool.or_eq_false_iff.mp hstop).1

end Loops

end Hlibc.Uri.Jmp
