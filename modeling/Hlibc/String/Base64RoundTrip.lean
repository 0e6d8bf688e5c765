import Hlibc.String.Base64Decode

/-!
# The round trip of `b64_encode` and `b64_decode`

The string that `b64_encode` writes is a text of the decoder, whose characters
are those of the sextets of the message.
-/

set_option autoImplicit false

namespace Hlibc.Base64

/-! ## What is decoded -/

/-- What may stand behind the sextets of a message of `n` bytes: the terminator,
with or without the padding before it. -/
def Ending (n : ℕ) (t : List UInt8) : Prop := t = [0] ∨ t = padding n ++ [0]

/-- The outcome of decoding a message into a destination whose first bytes are
`done` and whose remaining ones are `room`. -/
def Decoded (done room suf : List UInt8) (res : Exec (ℤ × List UInt8)) : Prop :=
  ∃ value dest, res = .ok (value, dest) ∧
    (suf.length ≤ room.length →
      value = 0 ∧ dest = done ++ suf ++ room.drop suf.length) ∧
      (room.length < suf.length → value = ENOMEM)

/-- The characters of the sextets of a message are decoded to it. -/
theorem decodeGroups_sextetChars (m : List UInt8) : decodeGroups (sextetChars m) = m := by
  induction m using sextetsOf.induct with
  | case1 x y z rest ih =>
      have hlt := sextetsOf_lt [x, y, z]
      simp only [sextetsOf, List.forall_mem_cons] at hlt
      obtain ⟨h0, h1, h2, h3, -⟩ := hlt
      have hy := y.toNat_lt
      have hz := z.toNat_lt
      have hsecond := secondSextet_eq x y
      have hthird := thirdSextet_eq y z
      have hfourth := fourthSextet_eq z
      simp only [sextetChars, sextetsOf, List.map_cons, decodeGroups, b64Val_sextetChar h0,
        b64Val_sextetChar h1, b64Val_sextetChar h2, b64Val_sextetChar h3]
      rw [firstByte_eq (by omega), secondByte_eq (y := y) (by omega) (by omega),
        thirdByte_eq (by omega) hfourth, ← sextetChars, ih]
  | case2 x y =>
      have hlt := sextetsOf_lt [x, y]
      simp only [sextetsOf, List.forall_mem_cons] at hlt
      obtain ⟨h0, h1, h2, -⟩ := hlt
      have hy := y.toNat_lt
      have hsecond := secondSextet_eq x y
      have hthird := midBits_eq y
      simp only [sextetChars, sextetsOf, List.map_cons, List.map_nil, decodeGroups,
        b64Val_sextetChar h0, b64Val_sextetChar h1, b64Val_sextetChar h2]
      rw [firstByte_eq (by omega), secondByte_eq (y := y) (by omega) (by omega)]
  | case3 x =>
      have hlt := sextetsOf_lt [x]
      simp only [sextetsOf, List.forall_mem_cons] at hlt
      obtain ⟨h0, h1, -⟩ := hlt
      have hsecond := lowBits_eq x
      simp only [sextetChars, sextetsOf, List.map_cons, List.map_nil, decodeGroups,
        b64Val_sextetChar h0, b64Val_sextetChar h1]
      rw [firstByte_eq (by omega)]
  | case4 => rfl

/-- The padding of a message may stand behind its sextets, or be missing. -/
theorem padFor_sextetChars (m : List UInt8) :
    PadFor (sextetChars m).length [] ∧ PadFor (sextetChars m).length (padding m.length) := by
  induction m using sextetsOf.induct with
  | case1 x y z rest ih =>
      have hlen : (sextetChars (x :: y :: z :: rest)).length = (sextetChars rest).length + 4 :=
        rfl
      have hpadding : padding (x :: y :: z :: rest).length = padding rest.length :=
        padding_add_three rest.length
      rw [hlen, hpadding, padFor_add_four, padFor_add_four]
      exact ih
  | case2 x y => exact ⟨Or.inl rfl, Or.inr rfl⟩
  | case3 x => exact ⟨Or.inl rfl, Or.inr rfl⟩
  | case4 => exact ⟨rfl, rfl⟩

/-- The sextets of a message with an ending are a text. -/
theorem isText_of_ending {m e t : List UInt8} (ht : Ending m.length t)
    (he : e ++ [0] = sextetChars m ++ t) : IsText e (sextetChars m) := by
  obtain ⟨hbare, hpadded⟩ := padFor_sextetChars m
  refine ⟨fun c hc => ?_, ?_⟩
  · obtain ⟨s, hs, rfl⟩ := List.mem_map.mp hc
    rw [InAlphabet, b64Val_sextetChar (sextetsOf_lt m s hs)]
    exact Int.natCast_nonneg s
  · rcases ht with rfl | rfl
    · exact ⟨[], hbare, (List.append_cancel_right he).trans (List.append_nil _).symm⟩
    · rw [← List.append_assoc] at he
      exact ⟨_, hpadded, List.append_cancel_right he⟩

theorem Outcome.decoded_sextets {m done room r : List UInt8} {full : Prop}
    {res : Exec (ℤ × List UInt8)} (h : Outcome done room (sextetChars m) r full res)
    (hfull : ¬ full) (hpad : PadFor (sextetChars m).length r) : Decoded done room m res := by
  have hbytes := decodeGroups_sextetChars m
  cases h with
  | noMemory out hroom =>
      rw [hbytes] at hroom
      exact ⟨ENOMEM, out, rfl, fun h => absurd h (Nat.not_le.mpr hroom), fun _ => rfl⟩
  | overflow hover => exact absurd hover hfull
  | invalid out _ hbad => exact absurd hpad hbad
  | decoded _ _ hroom =>
      rw [hbytes] at hroom ⊢
      exact ⟨0, _, rfl, fun _ => ⟨rfl, rfl⟩, fun h => absurd hroom (Nat.not_le.mpr h)⟩

/-! ## The round trip -/

/-- Characters of the alphabet are not the padding character. -/
theorem sextetChar_ne {s : ℕ} (hs : s < 64) : sextetChar s ≠ chr '=' := by
  intro h
  have hval := b64Val_sextetChar hs
  rw [h, b64Val_equals] at hval
  omega

theorem sextetChar_ne_zero {s : ℕ} (hs : s < 64) : sextetChar s ≠ 0 := by
  intro h
  have hval := b64Val_sextetChar hs
  rw [h, b64Val_zero] at hval
  omega

/-- Removing the trailing `=` from an encoding leaves its sextets. -/
theorem rdropWhile_encoded (m : List UInt8) :
    (sextetChars m ++ padding m.length).rdropWhile (· == chr '=') =
      sextetChars m := by
  have hbody : (sextetChars m).rdropWhile (· == chr '=') = sextetChars m := by
    rw [List.rdropWhile_eq_self_iff]
    intro hne hlast
    obtain ⟨s, hs, heq⟩ := List.mem_map.mp (List.getLast_mem hne)
    apply sextetChar_ne (sextetsOf_lt m s hs)
    rw [heq]
    exact eq_of_beq hlast
  have hdrop : ∀ l : List UInt8, (l ++ [chr '=']).rdropWhile (· == chr '=') =
      l.rdropWhile (· == chr '=') := by
    intro l
    apply List.rdropWhile_concat_pos
    exact beq_self_eq_true (chr '=')
  unfold padding
  split
  · rw [List.append_cons, hdrop, hdrop, hbody]
  · rw [hdrop, hbody]
  · rw [List.append_nil, hbody]

theorem zero_notMem_encoded (m : List UInt8) :
    0 ∉ sextetChars m ++ padding m.length := by
  intro h
  rcases List.mem_append.mp h with hbody | hpad
  · obtain ⟨s, hs, heq⟩ := List.mem_map.mp hbody
    exact sextetChar_ne_zero (sextetsOf_lt m s hs) heq
  · have hequals : (0 : UInt8) ≠ chr '=' := by decide
    unfold padding at hpad
    split at hpad
    · simp [hequals] at hpad
    · simp [hequals] at hpad
    · exact absurd hpad List.not_mem_nil

/-- An encoding has whole groups of four characters. -/
theorem length_encoded_mod (m : List UInt8) :
    (sextetChars m ++ padding m.length).length % 4 = 0 := by
  induction m using sextetsOf.induct with
  | case1 x y z rest ih =>
      rw [List.length_append] at ih ⊢
      rw [List.length_cons, List.length_cons, List.length_cons, padding_add_three]
      simp only [sextetChars, sextetsOf, List.map_cons, List.length_cons] at ih ⊢
      omega
  | case2 x y => simp [sextetChars, sextetsOf, padding]
  | case3 x => simp [sextetChars, sextetsOf, padding]
  | case4 => simp [sextetChars, sextetsOf, padding]

/-- `b64_decode` of `e` into a destination of any capacity: the message when it
fits, and `ENOMEM` when it does not. -/
def DecodesTo (e m : List UInt8) : Prop :=
  ∀ dest : List UInt8,
    (m.length ≤ dest.length →
      b64Decode (e ++ [0]) dest dest.length = .ok (0, m ++ dest.drop m.length)) ∧
    (dest.length < m.length →
      ∃ dest', b64Decode (e ++ [0]) dest dest.length = .ok (ENOMEM, dest'))

/-- The sextets of a message decode to it in front of either ending. -/
theorem decodesTo_of_ending {m e t : List UInt8}
    (hint : (sextetsOf m).length + 1 < 2 ^ 31) (hzero : 0 ∉ e) (ht : Ending m.length t)
    (he : e ++ [0] = sextetChars m ++ t) : DecodesTo e m := by
  obtain ⟨hfront, hpad⟩ := isText_iff.mp (isText_of_ending ht he)
  intro dest
  have hkeeps : ¬ 2 ^ 31 ≤ (front e).length + 1 := by
    rw [← hfront, sextetChars, List.length_map]
    omega
  have houtcome := b64Decode_outcome hzero dest
  rw [← hfront] at houtcome hpad hkeeps
  obtain ⟨value, dest', hres, hfits, hover⟩ := houtcome.decoded_sextets hkeeps hpad
  constructor
  · intro h
    obtain ⟨rfl, rfl⟩ := hfits h
    exact hres
  · intro h
    obtain rfl := hover h
    exact ⟨dest', hres⟩

/-- The string that `b64_encode` writes decodes to the message, with its
trailing padding and without, at every capacity. -/
theorem b64Encode_roundTrip (m : List UInt8) :
    ∃ e, b64Encode m m.length = .ok (e ++ [0]) ∧ 0 ∉ e ∧
      (e.length < 2 ^ 31 →
        DecodesTo e m ∧ DecodesTo (e.rdropWhile (· == chr '=')) m) := by
  refine ⟨sextetChars m ++ padding m.length, b64Encode_eq m,
    zero_notMem_encoded m, fun hlen => ?_⟩
  have hmod := length_encoded_mod m
  have hint : (sextetsOf m).length + 1 < 2 ^ 31 := by
    have hbody : (sextetChars m).length = (sextetsOf m).length := by
      rw [sextetChars, List.length_map]
    rw [List.length_append] at hlen hmod
    omega
  have hzero := zero_notMem_encoded m
  constructor
  · exact decodesTo_of_ending hint hzero (Or.inr rfl) (List.append_assoc _ _ _)
  · rw [rdropWhile_encoded]
    exact decodesTo_of_ending hint (fun h => hzero (List.mem_append_left _ h))
      (Or.inl rfl) rfl

/-- The round trip of a message of two bytes. -/
theorem b64Encode_roundTrip_twoBytes :
    b64Encode [0x61, 0x62] 2 = .ok (ascii "YWI=" ++ [0]) ∧
      DecodesTo (ascii "YWI=") [0x61, 0x62] ∧
        DecodesTo (ascii "YWI") [0x61, 0x62] := by
  have hrun : b64Encode [0x61, 0x62] 2 = .ok (ascii "YWI=" ++ [0]) := by
    decide
  obtain ⟨e, he, -, hround⟩ := b64Encode_roundTrip [0x61, 0x62]
  obtain rfl : e = ascii "YWI=" :=
    List.append_cancel_right (Except.ok.inj (he.symm.trans hrun))
  obtain ⟨hpadded, hbare⟩ := hround (by decide)
  have hstrip : (ascii "YWI=").rdropWhile (· == chr '=') = ascii "YWI" := by
    decide
  rw [hstrip] at hbare
  exact ⟨hrun, hpadded, hbare⟩


end Hlibc.Base64
