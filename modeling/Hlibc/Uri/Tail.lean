import Hlibc.Uri.Bytes
import Hlibc.Uri.Recognition

/-!
# Reading from the port on

What `uri_parse_segments` recognises from a place in the text on: the fragment, the query, the
path and the port, from the last component to the first, each as its dialect reads it.
-/

set_option autoImplicit false

namespace Hlibc.Uri

open Grammar

/-! ## The dialect -/

/-- The hosts that the parser accepts. -/
def PlainHost (w : List UInt8) : Prop := w = [] ∨ w ∈ ipv4Address

/-- The dialect of the parser. -/
def codeDialect : Dialect where
  sub := codeSub
  relative path := chr ':' ∉ firstSegment path
  userStop := [chr '@']
  host type w := PlainHost w ∧ type = plainType w

section Tail

variable {src w : List UInt8} {pos : ℕ} {dest : UriSegments}

/-! ## The end, the fragment and the query -/

theorem uriEnd_recognizes (h : TextAt src pos w) :
    Recognizes (fun d => w = [] ∧ d = dest) (uriEnd src pos dest) := by
  rw [uriEnd, h.read, Exec.ok_bind]
  cases w with
  | nil => exact .accept fun d => and_iff_right rfl
  | cons c w =>
      rw [List.headD_cons, if_pos h.lt_of_cons.1]
      exact .reject fun d hd => List.cons_ne_nil c w hd.1

theorem uriFragment_recognizes (h : TextAt src pos w) (hnull : dest.fragment = .null) :
    Recognizes (codeDialect.FragmentReads viewAt pos w dest) (uriFragment src pos dest) := by
  rw [uriFragment, h.read, Exec.ok_bind]
  by_cases hhead : w.headD 0 = chr '#'
  · obtain ⟨r, rfl⟩ := exists_cons_of_headD hhead (by decide)
    obtain ⟨⟨x, y⟩, hscan⟩ : ∃ xy, scan (startsUnit (isQueryChar codeSub)) r = xy := ⟨_, rfl⟩
    simp only [if_pos hhead, parseFragment, h.tail.skip_fragment, hscan, Exec.ok_bind, ne_eq,
      not_true_eq_false, if_false, Nat.add_sub_cancel_left]
    exact (uriEnd_recognizes (h.tail.behind_scan hscan)).congr fun d =>
      Dialect.fragmentReads_mark hscan
  · rw [if_neg hhead]
    refine (uriEnd_recognizes h).congr fun d => ?_
    rw [Dialect.fragmentReads_absent hhead, viewAt, ← hnull]

theorem uriQuery_recognizes (h : TextAt src pos w) (hquery : dest.query = .null)
    (hfragment : dest.fragment = .null) :
    Recognizes (codeDialect.QueryReads viewAt pos w dest) (uriQuery src pos dest) := by
  rw [uriQuery, h.read, Exec.ok_bind]
  by_cases hhead : w.headD 0 = chr '?'
  · obtain ⟨r, rfl⟩ := exists_cons_of_headD hhead (by decide)
    obtain ⟨⟨x, y⟩, hscan⟩ : ∃ xy, scan (startsUnit (isQueryChar codeSub)) r = xy := ⟨_, rfl⟩
    simp only [if_pos hhead, parseQuery, h.tail.skip_query, hscan, Exec.ok_bind, ne_eq,
      not_true_eq_false, if_false, Nat.add_sub_cancel_left]
    exact (uriFragment_recognizes (h.tail.behind_scan hscan) (by exact hfragment)).congr fun d =>
      Dialect.queryReads_mark codeSub_separable hscan
  · rw [if_neg hhead]
    refine (uriFragment_recognizes h hfragment).congr fun d => ?_
    rw [Dialect.queryReads_absent hhead, ← hquery]

end Tail

/-! ## The path -/

/-- How the first segment of a path may look, given which components are in front. -/
def FirstSegmentOk (hasScheme hasAuthority : Bool) (path : List UInt8) : Prop :=
  if hasAuthority then firstSegment path = []
  else hasScheme = false → chr ':' ∉ firstSegment path

instance (hasScheme hasAuthority : Bool) (path : List UInt8) :
    Decidable (FirstSegmentOk hasScheme hasAuthority path) := by
  unfold FirstSegmentOk
  infer_instance

/-- The loop over a first segment without a colon; at the end of the path it looks at the
character behind. -/
theorem noColon_loop {src w x y : List UInt8} {pos budget : ℕ} (h : StringAt src pos w)
    (hscan : scan (startsUnit (isPathChar codeSub)) w = (x, y)) (hbudget : w.length < budget) :
    loop (noColonPass src) budget pos =
      if chr ':' ∈ firstSegment x then .ok none
      else if firstSegment x = x ∧ ¬ AsciiFront y then .error .read
      else .ok (some (pos + (firstSegment x).length)) := by
  obtain ⟨budget, rfl⟩ : ∃ k, budget = k + 1 := ⟨budget - 1, by omega⟩
  induction w generalizing pos budget x with
  | nil =>
      obtain ⟨rfl, rfl⟩ := Prod.mk.inj hscan
      have hfront : AsciiFront [] := (by decide : (0 : UInt8).toNat < 128)
      have hcset : isPathCset src pos = _ := h.unitTest_eq pathCset_holds rfl
      have hpass : noColonPass src pos = .ok (.done (some pos)) := by
        simp [noColonPass, hcset, hfront, startsUnit, andThen]
      rw [loop_done hpass]
      simp [firstSegment, hfront]
  | cons c w ih =>
      have hcset : isPathCset src pos = _ := h.unitTest_eq pathCset_holds rfl
      cases hunit : startsUnit (isPathChar codeSub) (c :: w) with
      | false =>
          rw [scan_neg hunit] at hscan
          obtain ⟨rfl, rfl⟩ := Prod.mk.inj hscan
          rw [hunit] at hcset
          by_cases hfront : AsciiFront (c :: w)
          · have hpass : noColonPass src pos = .ok (.done (some pos)) := by
              simp [noColonPass, hcset, hfront, andThen]
            rw [loop_done hpass]
            simp [firstSegment, hfront]
          · have hpass : noColonPass src pos = .error .read := by
              simp [noColonPass, hcset, hfront, andThen]
            rw [loop_error hpass]
            simp [firstSegment, hfront]
      | true =>
          have hfront := pathCset_holds.asciiFront_unit hunit
          rw [hunit, if_pos hfront] at hcset
          rw [scan_cons_pos hunit] at hscan
          obtain ⟨rfl, rfl⟩ := Prod.mk.inj hscan
          by_cases hslash : c = chr '/'
          · subst hslash
            have hpass : noColonPass src pos = .ok (.done (some pos)) := by
              simp [noColonPass, hcset, andThen, h.read]
            rw [loop_done hpass]
            simp [firstSegment]
          have hfirst : ∀ v, firstSegment (c :: v) = c :: firstSegment v := by
            intro v
            simp [firstSegment, hslash]
          by_cases hcolon : c = chr ':'
          · subst hcolon
            have hpass : noColonPass src pos = .ok (.done none) := by
              simp [noColonPass, hcset, andThen, h.read, hslash]
            rw [loop_done hpass, hfirst, if_pos List.mem_cons_self]
          · have hpass : noColonPass src pos = .ok (.next (pos + 1)) := by
              simp [noColonPass, hcset, andThen, h.read, hslash, hcolon]
            rw [List.length_cons] at hbudget
            obtain ⟨budget, rfl⟩ : ∃ k, budget = k + 1 := ⟨budget - 1, by omega⟩
            rw [loop_next hpass, ih h.tail rfl budget (by omega), hfirst]
            simp [List.mem_cons, Ne.symm hcolon, Nat.add_comm 1, Nat.add_assoc]

/-- The test of the first character behind an authority. -/
theorem StringAt.pathFront_eq {src w x y : List UInt8} {pos : ℕ} (h : StringAt src pos w)
    (hscan : scan (startsUnit (isPathChar codeSub)) w = (x, y)) :
    andThen ((· != chr '/') <$> readByte src pos) (isPathCset src pos) =
      if x = [] ∧ ¬ AsciiFront y then .error .read else .ok (decide (firstSegment x ≠ [])) := by
  have hcset : isPathCset src pos = _ := h.unitTest_eq pathCset_holds rfl
  rw [h.read, hcset]
  cases w with
  | nil =>
      obtain ⟨rfl, rfl⟩ := Prod.mk.inj hscan
      rfl
  | cons c w =>
      cases hunit : startsUnit (isPathChar codeSub) (c :: w) with
      | false =>
          rw [scan_neg hunit] at hscan
          obtain ⟨rfl, rfl⟩ := Prod.mk.inj hscan
          have hslash : c ≠ chr '/' := by
            rintro rfl
            exact absurd hunit (by simp [startsUnit, isPathChar])
          by_cases hfront : AsciiFront (c :: w) <;>
            simp [andThen, firstSegment, hslash, hfront]
      | true =>
          have hfront := pathCset_holds.asciiFront_unit hunit
          rw [scan_cons_pos hunit] at hscan
          obtain ⟨rfl, rfl⟩ := Prod.mk.inj hscan
          by_cases hslash : c = chr '/' <;> simp [andThen, firstSegment, hslash, hfront]

/-- Behind its first segment, the scan of a path goes on to the same end. -/
theorem StringAt.skip_behind_segment {src w x y : List UInt8} {pos : ℕ} (h : StringAt src pos w)
    (hscan : scan (startsUnit (isPathChar codeSub)) w = (x, y)) :
    skipWhile src isPathCset (pos + (firstSegment x).length) =
      if AsciiFront y then .ok (pos + x.length) else .error .read := by
  obtain ⟨x', hx'⟩ : ∃ x', x = firstSegment x ++ x' :=
    ⟨x.dropWhile (· != chr '/'), (List.takeWhile_append_dropWhile).symm⟩
  have hw := scan_append (startsUnit (isPathChar codeSub)) w
  rw [hscan] at hw
  have hfront : w = firstSegment x ++ (x' ++ y) := by
    rw [← hw, ← List.append_assoc, ← hx']
  have hrest : StringAt src (pos + (firstSegment x).length) (x' ++ y) := by
    rw [hfront] at h
    exact h.append
  have hscan' : scan (startsUnit (isPathChar codeSub)) (x' ++ y) = (x', y) := by
    apply scan_suffix (firstSegment x)
    rw [← hfront, ← hx']
    exact hscan
  have hskip : skipWhile src isPathCset (pos + (firstSegment x).length) = _ :=
    hrest.skip_units pathCset_holds rfl
  rw [hskip, hscan', Nat.add_assoc, ← List.length_append, ← hx']

/-- `parse_path` takes the path characters in front, if the first segment may look so; it
looks at the character behind them. -/
theorem StringAt.parsePath_eq {src w x y : List UInt8} {pos : ℕ} (h : StringAt src pos w)
    (hscan : scan (startsUnit (isPathChar codeSub)) w = (x, y)) (hasScheme hasAuthority : Bool) :
    parsePath src pos hasScheme hasAuthority =
      if FirstSegmentOk hasScheme hasAuthority x then
        if AsciiFront y then .ok (0, pos + x.length) else .error .read
      else .ok (EINVAL, pos) := by
  have hskip : skipWhile src isPathCset pos = _ := h.skip_units pathCset_holds rfl
  rw [hscan] at hskip
  cases hasAuthority with
  | true =>
      have hbad := h.pathFront_eq hscan
      by_cases hstop : x = [] ∧ ¬ AsciiFront y
      · obtain ⟨rfl, hfront⟩ := hstop
        simp [parsePath, FirstSegmentOk, hbad, hfront, firstSegment]
      · rw [if_neg hstop] at hbad
        by_cases hfirst : firstSegment x = []
        · by_cases hfront : AsciiFront y
          · simp [parsePath, FirstSegmentOk, hbad, hfirst, hskip, hfront]
          · simp [parsePath, FirstSegmentOk, hbad, hfirst, hskip, hfront]
        · simp [parsePath, FirstSegmentOk, hbad, hfirst]
  | false =>
      cases hasScheme with
      | true =>
          by_cases hfront : AsciiFront y
          · simp [parsePath, FirstSegmentOk, hskip, hfront]
          · simp [parsePath, FirstSegmentOk, hskip, hfront]
      | false =>
          have hloop := noColon_loop h hscan h.length_lt
          by_cases hcolon : chr ':' ∈ firstSegment x
          · simp [parsePath, FirstSegmentOk, hloop, hcolon]
          rw [if_neg hcolon] at hloop
          by_cases hstop : firstSegment x = x ∧ ¬ AsciiFront y
          · rw [if_pos hstop] at hloop
            simp [parsePath, FirstSegmentOk, hloop, hcolon, hstop.2]
          · rw [if_neg hstop] at hloop
            have hbehind := h.skip_behind_segment hscan
            by_cases hfront : AsciiFront y
            · simp [parsePath, FirstSegmentOk, hloop, hcolon, hbehind, hfront]
            · simp [parsePath, FirstSegmentOk, hloop, hcolon, hbehind, hfront]

theorem parsePath_eq {src w x y : List UInt8} {pos : ℕ} (h : TextAt src pos w)
    (hscan : scan (startsUnit (isPathChar codeSub)) w = (x, y)) (hasScheme hasAuthority : Bool) :
    parsePath src pos hasScheme hasAuthority =
      .ok (if FirstSegmentOk hasScheme hasAuthority x then (0, pos + x.length)
        else (EINVAL, pos)) := by
  rw [h.string.parsePath_eq hscan, if_pos (h.behind_scan hscan).asciiFront]
  split <;> rfl

theorem uriPath_recognizes {src w : List UInt8} {pos : ℕ} {dest : UriSegments}
    (h : TextAt src pos w) (hquery : dest.query = .null) (hfragment : dest.fragment = .null) :
    Recognizes (codeDialect.PathReads viewAt pos w dest) (uriPath src pos dest) := by
  obtain ⟨⟨x, y⟩, hscan⟩ : ∃ xy, scan (startsUnit (isPathChar codeSub)) w = xy := ⟨_, rfl⟩
  obtain ⟨hunits, -, -⟩ := (scan_units_iff (pathUnits_hex codeSub)).mp hscan
  have hreads : ∀ d, codeDialect.PathReads viewAt pos w dest d ↔ _ := fun d =>
    Dialect.pathReads_scan codeSub_separable hscan
  have hok : codeDialect.PathOk dest.scheme.str.isSome dest.host.str.isSome x ↔
      FirstSegmentOk dest.scheme.str.isSome dest.host.str.isSome x := and_iff_right hunits
  rw [uriPath, parsePath_eq h hscan, Exec.ok_bind]
  by_cases hfirst : FirstSegmentOk dest.scheme.str.isSome dest.host.str.isSome x
  · simp only [if_pos hfirst, ne_eq, not_true_eq_false, if_false, Nat.add_sub_cancel_left]
    refine (uriQuery_recognizes (h.behind_scan hscan) (by exact hquery)
      (by exact hfragment)).congr fun d => ?_
    rw [hreads, and_iff_right (hok.mpr hfirst)]
  · have hcode : ¬ (EINVAL : ℤ) = 0 := by decide
    simp only [if_neg hfirst, ne_eq, hcode, not_false_eq_true, if_true]
    exact .reject fun d hd => hfirst (hok.mp ((hreads d).mp hd).1)

/-! ## The port -/

theorem uriPort_recognizes {src w : List UInt8} {pos : ℕ} {dest : UriSegments}
    (h : TextAt src pos w) (hhost : dest.host.str.isSome = true) (hport : dest.port = .null)
    (hquery : dest.query = .null) (hfragment : dest.fragment = .null) :
    Recognizes (codeDialect.PortReads viewAt pos w dest) (uriPort src pos dest) := by
  rw [uriPort, h.read, Exec.ok_bind]
  by_cases hhead : w.headD 0 = chr ':'
  · obtain ⟨r, rfl⟩ := exists_cons_of_headD hhead (by decide)
    obtain ⟨⟨x, y⟩, hscan⟩ : ∃ xy, scan (startsChar isdigit) r = xy := ⟨_, rfl⟩
    simp only [if_pos hhead, parsePort, h.tail.skip_port, hscan, Exec.ok_bind, ne_eq,
      not_true_eq_false, if_false, Nat.add_sub_cancel_left]
    exact (uriPath_recognizes (h.tail.behind_scan hscan) (by exact hquery)
      (by exact hfragment)).congr fun d => Dialect.portReads_mark hhost hscan
  · rw [if_neg hhead]
    refine (uriPath_recognizes h hquery hfragment).congr fun d => ?_
    rw [Dialect.portReads_absent hhead, ← hport]

end Hlibc.Uri
