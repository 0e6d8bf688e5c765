import Hlibc.Uri.JmpText
import Hlibc.Uri.SwitchRules

/-!
# The two parsers of `etc/uri`

`uri_parse_segments_jmp` and `uri_parse_segments_switch` recognise two dialects, and the first
counts the size of a fragment backwards.  So they agree on a text exactly if the first stays
inside it, and both dialects assign the same components to it without a fragment, or neither
assigns any.
-/

set_option autoImplicit false

namespace Hlibc.Uri

open Grammar

/-! ## Agreement -/

/-- The same seven slices, and the same type of the host where there is one. -/
structure SameSegments (d d' : UriSegments) : Prop where
  scheme : d.scheme = d'.scheme
  userinfo : d.userinfo = d'.userinfo
  host : d.host = d'.host
  port : d.port = d'.port
  path : d.path = d'.path
  query : d.query = d'.query
  fragment : d.fragment = d'.fragment
  hostType : d.host.str.isSome = true → d.hostType = d'.hostType

/-- Both parsers return the same code, and the same segments where it is 0. -/
def Agrees (s : List UInt8) : Prop :=
  ∃ code d d', Jmp.uriParseSegmentsJmp (s ++ [0]) = .ok (code, d) ∧
    Switch.uriParseSegmentsSwitch (s ++ [0]) = .ok (code, d') ∧ (code = 0 → SameSegments d d')

/-- Both dialects assign the components, with a host of the same type. -/
def BothAssign (p : Parts) (type : HostType) : Prop :=
  Jmp.dialect.Assigns p type ∧ Switch.dialect.Assigns p type

/-- Neither dialect assigns components to the text. -/
def NeitherAssigns (s : List UInt8) : Prop :=
  ∀ p type, p.text = s → ¬ Jmp.dialect.Assigns p type ∧ ¬ Switch.dialect.Assigns p type

/-! ## Slices -/

/-- Where the fragment of components stands. -/
def Parts.fragmentOffset (p : Parts) : ℕ :=
  (before ':' p.scheme).length + (authorityText p.authority).length + p.path.length +
    (behind '?' p.query).length + 1

theorem fragmentOffset_add_length {p : Parts} {x : List UInt8} (hx : p.fragment = some x) :
    p.fragmentOffset + x.length = p.text.length := by
  rw [Parts.fragmentOffset, Parts.text, Parts.tailText, hx, behind_some]
  simp only [List.length_append, List.length_cons]
  omega

/-- A size that is counted backwards is never the size. -/
theorem ptrDiff_ne (off n : ℕ) : Jmp.ptrDiff off (off + n + 1) ≠ n := by
  rw [Jmp.ptrDiff]
  omega

/-- Equal slices of a fragment mean that there is none. -/
theorem fragment_none {p p' : Parts} (htext : p.text = p'.text)
    (h : Jmp.fragmentView p.fragmentOffset p.fragment = viewAt p'.fragmentOffset p'.fragment) :
    p.fragment = none ∧ p'.fragment = none := by
  cases hx : p.fragment with
  | none =>
      refine ⟨rfl, ?_⟩
      cases hx' : p'.fragment with
      | none => rfl
      | some x' =>
          rw [hx, hx'] at h
          cases congrArg StringView.str h
  | some x =>
      exfalso
      cases hx' : p'.fragment with
      | none =>
          rw [hx, hx'] at h
          cases congrArg StringView.str h
      | some x' =>
          rw [hx, hx'] at h
          have hoff : p.fragmentOffset = p'.fragmentOffset :=
            Option.some.inj (congrArg StringView.str h)
          have hsize : Jmp.ptrDiff p.fragmentOffset (p.fragmentOffset + x.length + 1) =
              x'.length := congrArg StringView.size h
          have hlen : x'.length = x.length := by
            have hend := fragmentOffset_add_length hx
            have hend' := fragmentOffset_add_length hx'
            rw [htext] at hend
            omega
          exact ptrDiff_ne _ _ (hsize.trans hlen)

/-- Without a fragment, both views record the places of the components. -/
theorem record_of_none {view : Dialect.FragmentView} {p : Parts} (type : HostType)
    (hview : ∀ off, view off none = .null) (hnone : p.fragment = none) :
    Dialect.record view p type = { p.place with hostType := type } := by
  rw [Dialect.record, hnone, hview, Parts.place, hnone, viewAt]

/-- Records without fragments that have the same segments are of the same components. -/
theorem parts_of_sameSegments {p p' : Parts} {type type' : HostType} (htext : p.text = p'.text)
    (h : SameSegments { p.place with hostType := type } { p'.place with hostType := type' }) :
    p = p' := by
  have hplace := place_records p
  have hplace' := place_records p'
  rw [← htext] at hplace'
  refine hplace.unique ⟨?_, ?_, ?_, ?_, ?_, ?_, ?_⟩
  · exact (congrArg _ h.scheme).trans hplace'.scheme
  · exact (congrArg _ h.userinfo).trans hplace'.userinfo
  · exact (congrArg _ h.host).trans hplace'.host
  · exact (congrArg _ h.port).trans hplace'.port
  · exact (congrArg _ h.path).trans hplace'.path
  · exact (congrArg _ h.query).trans hplace'.query
  · exact (congrArg _ h.fragment).trans hplace'.fragment

/-- Records of what the dialects assign have the same segments if they are of the same
components without a fragment. -/
theorem sameSegments_iff {p p' : Parts} {type type' : HostType} (htext : p.text = p'.text)
    (hp : Jmp.dialect.Assigns p type) (hp' : Switch.dialect.Assigns p' type') :
    SameSegments (Dialect.record Jmp.fragmentView p type) (Dialect.record viewAt p' type') ↔
      p = p' ∧ type = type' ∧ p.fragment = none := by
  constructor
  · intro h
    obtain ⟨hnone, hnone'⟩ := fragment_none htext h.fragment
    rw [record_of_none type (fun _ => rfl) hnone, record_of_none type' (fun _ => rfl) hnone'] at h
    obtain rfl := parts_of_sameSegments htext h
    refine ⟨rfl, ?_, hnone⟩
    cases ha : p.authority with
    | none => rw [(hp.noAuthority ha).1, (hp'.noAuthority ha).1]
    | some a =>
        refine h.hostType ?_
        rw [Parts.place, ha]
        rfl
  · rintro ⟨rfl, rfl, hnone⟩
    rw [record_of_none type (fun _ => rfl) hnone, record_of_none type (fun _ => rfl) hnone]
    exact ⟨rfl, rfl, rfl, rfl, rfl, rfl, rfl, fun _ => rfl⟩

/-! ## Where the parsers agree -/

/-- What two parsers that recognise the dialects return, compared. -/
theorem agrees_iff_of_recognizes {s : List UInt8}
    (hjmp : Recognizes (fun d => ∃ p type, p.text = s ∧ Jmp.dialect.Assigns p type ∧
      d = Dialect.record Jmp.fragmentView p type) (Jmp.uriParseSegmentsJmp (s ++ [0])))
    (hswitch : Recognizes (fun d => ∃ p type, p.text = s ∧ Switch.dialect.Assigns p type ∧
      d = Dialect.record viewAt p type) (Switch.uriParseSegmentsSwitch (s ++ [0]))) :
    Agrees s ↔ (∃ p type, p.text = s ∧ p.fragment = none ∧ BothAssign p type) ∨
      NeitherAssigns s := by
  obtain ⟨code, d, hrun, hcase⟩ := hjmp.exists_ok
  obtain ⟨code', d', hrun', hcase'⟩ := hswitch.exists_ok
  have hagrees : Agrees s ↔ code = code' ∧ (code = 0 → SameSegments d d') := by
    constructor
    · rintro ⟨k, e, e', hk, hk', hsame⟩
      rw [hrun] at hk
      rw [hrun'] at hk'
      cases hk
      cases hk'
      exact ⟨rfl, hsame⟩
    · rintro ⟨rfl, hsame⟩
      exact ⟨code, d, d', hrun, hrun', hsame⟩
  rw [hagrees]
  rcases hcase with ⟨rfl, q, type, rfl, hq, rfl⟩ | ⟨rfl, hnone⟩ <;>
    rcases hcase' with ⟨rfl, q', type', htext, hq', rfl⟩ | ⟨rfl, hnone'⟩
  · rw [and_iff_right rfl, forall_prop_of_true rfl, sameSegments_iff htext.symm hq hq']
    constructor
    · rintro ⟨rfl, rfl, hfragment⟩
      exact Or.inl ⟨q, type, rfl, hfragment, hq, hq'⟩
    · rintro (⟨p, t, htext', hfragment, hp, hp'⟩ | hneither)
      · have hsame : SameSegments (Dialect.record Jmp.fragmentView p t)
            (Dialect.record viewAt p t) :=
          (sameSegments_iff rfl hp hp').mpr ⟨rfl, rfl, hfragment⟩
        rw [hjmp.unique hrun ⟨p, t, htext', hp, rfl⟩,
          hswitch.unique hrun' ⟨p, t, htext', hp', rfl⟩] at hsame
        exact (sameSegments_iff htext.symm hq hq').mp hsame
      · exact absurd hq (hneither q type rfl).1
  · refine iff_of_false (fun h => absurd h.1 (by decide)) ?_
    rintro (⟨p, t, htext, -, -, hp'⟩ | hneither)
    · exact hnone' _ ⟨p, t, htext, hp', rfl⟩
    · exact (hneither q type rfl).1 hq
  · refine iff_of_false (fun h => absurd h.1 (by decide)) ?_
    rintro (⟨p, t, htext, -, hp, -⟩ | hneither)
    · exact hnone _ ⟨p, t, htext, hp, rfl⟩
    · exact (hneither q' type' htext).2 hq'
  · refine iff_of_true ⟨rfl, fun h => absurd h (by decide)⟩ (Or.inr fun p t htext => ⟨?_, ?_⟩)
    · exact fun hp => hnone _ ⟨p, t, htext, hp, rfl⟩
    · exact fun hp => hnone' _ ⟨p, t, htext, hp, rfl⟩

theorem jmp_agrees_switch_iff {s : List UInt8} (hs : Ascii s) :
    Agrees s ↔ ¬ Jmp.Overruns s ∧
      ((∃ p type, p.text = s ∧ p.fragment = none ∧ BothAssign p type) ∨ NeitherAssigns s) := by
  have hswitch := Switch.uriParseSegmentsSwitch_recognizes hs
  rcases Jmp.uriParseSegmentsJmp_settles fun hzero => (hs 0 hzero).1 rfl with
    ⟨hover, hrun⟩ | ⟨hinside, hjmp⟩
  · refine iff_of_false ?_ fun h => h.1 hover
    rintro ⟨code, d, d', hcode, -, -⟩
    rw [hrun] at hcode
    cases hcode
  rw [and_iff_right hinside]
  exact agrees_iff_of_recognizes (hjmp.congr fun d => Dialect.schemeReads_iff.symm)
    (hswitch.congr fun d => Dialect.schemeReads_iff.symm)

theorem jmp_agrees_switch_iff_name :
    Agrees (ascii "//a") ↔ ¬ Jmp.Overruns (ascii "//a") ∧
      ((∃ p type, p.text = ascii "//a" ∧ p.fragment = none ∧ BothAssign p type) ∨
        NeitherAssigns (ascii "//a")) :=
  jmp_agrees_switch_iff (by decide)

/-- For the fragment of `a#b`, one parser records the size `2 ^ 64 - 2`, the other the size 1. -/
theorem jmp_disagrees_switch : ¬ ∀ s, Ascii s → Agrees s := by
  intro hall
  obtain ⟨code, d, d', hjmp, hswitch, hsame⟩ := hall (ascii "a#b") (by decide)
  have hjmp' : (Jmp.uriParseSegmentsJmp (ascii "a#b" ++ [0])).map
      (fun r => (r.1, r.2.fragment.size)) = .ok (0, 2 ^ 64 - 2) := by decide
  have hswitch' : (Switch.uriParseSegmentsSwitch (ascii "a#b" ++ [0])).map
      (fun r => r.2.fragment.size) = .ok 1 := by decide
  rw [hjmp] at hjmp'
  rw [hswitch] at hswitch'
  obtain ⟨hcode, hsize⟩ := Prod.mk.inj (Except.ok.inj hjmp')
  have hsize' : d'.fragment.size = 1 := Except.ok.inj hswitch'
  have heq : d.fragment.size = d'.fragment.size :=
    congrArg StringView.size (hsame hcode).fragment
  have hsize : d.fragment.size = 2 ^ 64 - 2 := hsize
  omega

end Hlibc.Uri
