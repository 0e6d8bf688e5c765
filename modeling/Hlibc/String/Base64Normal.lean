import Hlibc.String.Base64RoundTrip

/-!
# Texts with the same bytes

`b64_decode` takes texts without their padding, and texts whose last character has bits set
that fill no byte.  Encoding the bytes again writes one text for all of them: the bits are
cleared and the padding is there.
-/

set_option autoImplicit false

namespace Hlibc.Base64

/-! ## The text that is written again -/

/-- The characters with the bits cleared that fill no byte. -/
def cleared : List UInt8 → List UInt8
  | a :: b :: c :: d :: rest => a :: b :: c :: d :: cleared rest
  | [a, b, c] => [a, b, sextetChar ((b64Val c).toNat / 4 * 4)]
  | [a, b] => [a, sextetChar ((b64Val b).toNat / 16 * 16)]
  | cs => cs

/-- The text of characters with the bits cleared and the padding behind. -/
def normalText (cs : List UInt8) : List UInt8 := cleared cs ++ padding (bytesOf cs).length

/-- The bits behind the last whole byte. -/
def unusedBits (cs : List UInt8) : List Bool :=
  (cs.flatMap sextetBits).drop (8 * (6 * cs.length / 8))

/-- Whole groups, with no unused bit set. -/
def Strict (s cs : List UInt8) : Prop := s.length % 4 = 0 ∧ ∀ b ∈ unusedBits cs, b = false

/-! ## Characters and their values -/

theorem sextetChar_b64Val {c : UInt8} (hc : InAlphabet c) : sextetChar (b64Val c).toNat = c := by
  have htable : ∀ n < 256, InAlphabet (UInt8.ofNat n) →
      sextetChar (b64Val (UInt8.ofNat n)).toNat = UInt8.ofNat n := by decide +kernel
  have hall := htable c.toNat c.toNat_lt
  rw [UInt8.ofNat_toNat] at hall
  exact hall hc

theorem firstByte_toNat {a b : ℤ} (ha : a.toNat < 64) (hb : b.toNat < 64) :
    (firstByte a b).toNat = 4 * a.toNat + b.toNat / 16 := by
  rw [firstByte, UInt8.toNat_ofNat', Nat.shiftRight_eq_div_pow,
    ← Nat.shiftLeft_add_eq_or_of_lt (by omega), Nat.shiftLeft_eq]
  omega

theorem secondByte_toNat {a b : ℤ} (hb : b.toNat < 64) :
    (secondByte a b).toNat = a.toNat % 16 * 16 + b.toNat / 4 := by
  rw [secondByte, UInt8.toNat_ofNat', Nat.shiftRight_eq_div_pow,
    ← Nat.shiftLeft_add_eq_or_of_lt (by omega), Nat.shiftLeft_eq]
  omega

theorem thirdByte_toNat {a b : ℤ} (hb : b.toNat < 64) :
    (thirdByte a b).toNat = a.toNat % 4 * 64 + b.toNat := by
  rw [thirdByte, UInt8.toNat_ofNat', Nat.shiftRight_zero,
    ← Nat.shiftLeft_add_eq_or_of_lt (by omega), Nat.shiftLeft_eq]
  omega

/-! ## Encoding again -/

theorem length_group_mod (a b c d : UInt8) (rest : List UInt8) :
    (a :: b :: c :: d :: rest).length % 4 = rest.length % 4 := Nat.add_mod_right rest.length 4

/-- The characters of the bytes of characters are these, with the unused bits cleared. -/
theorem sextetChars_decodeGroups {cs : List UInt8} (hcs : ∀ c ∈ cs, InAlphabet c)
    (hlen : cs.length % 4 ≠ 1) : sextetChars (decodeGroups cs) = cleared cs := by
  fun_induction cleared cs with
  | case1 a b c d rest ih =>
      simp only [List.forall_mem_cons] at hcs
      obtain ⟨ha, hb, hc, hd, hrest⟩ := hcs
      have hfirst := firstByte_toNat (b64Val_lt a) (b64Val_lt b)
      have hsecond := secondByte_toNat (a := b64Val b) (b64Val_lt c)
      have hthird := thirdByte_toNat (a := b64Val c) (b64Val_lt d)
      have hbits := And.intro (b64Val_lt b) (And.intro (b64Val_lt c) (b64Val_lt d))
      have hvalues : sextetsOf (decodeGroups (a :: b :: c :: d :: rest)) =
          (b64Val a).toNat :: (b64Val b).toNat :: (b64Val c).toNat :: (b64Val d).toNat ::
            sextetsOf (decodeGroups rest) := by
        rw [decodeGroups, sextetsOf, secondSextet_eq, thirdSextet_eq, fourthSextet_eq,
          Nat.shiftRight_eq_div_pow, hfirst, hsecond, hthird]
        simp only [List.cons.injEq, and_true]
        omega
      rw [length_group_mod] at hlen
      have hind := ih hrest hlen
      rw [sextetChars, hvalues, List.map_cons, List.map_cons, List.map_cons, List.map_cons,
        sextetChar_b64Val ha, sextetChar_b64Val hb, sextetChar_b64Val hc, sextetChar_b64Val hd,
        ← sextetChars, hind]
  | case2 a b c =>
      simp only [List.forall_mem_cons] at hcs
      obtain ⟨ha, hb, -⟩ := hcs
      have hfirst := firstByte_toNat (b64Val_lt a) (b64Val_lt b)
      have hsecond := secondByte_toNat (a := b64Val b) (b64Val_lt c)
      have hbits := And.intro (b64Val_lt b) (b64Val_lt c)
      have hvalues : sextetsOf (decodeGroups [a, b, c]) =
          [(b64Val a).toNat, (b64Val b).toNat, (b64Val c).toNat / 4 * 4] := by
        rw [decodeGroups, sextetsOf, secondSextet_eq, midBits_eq, Nat.shiftRight_eq_div_pow,
          hfirst, hsecond]
        simp only [List.cons.injEq, and_true]
        omega
      rw [sextetChars, hvalues, List.map_cons, List.map_cons, List.map_cons, List.map_nil,
        sextetChar_b64Val ha, sextetChar_b64Val hb]
  | case3 a b =>
      have hfirst := firstByte_toNat (b64Val_lt a) (b64Val_lt b)
      have hbits := b64Val_lt b
      have hvalues : sextetsOf (decodeGroups [a, b]) =
          [(b64Val a).toNat, (b64Val b).toNat / 16 * 16] := by
        rw [decodeGroups, sextetsOf, lowBits_eq, Nat.shiftRight_eq_div_pow, hfirst]
        simp only [List.cons.injEq, and_true]
        omega
      rw [sextetChars, hvalues, List.map_cons, List.map_cons, List.map_nil,
        sextetChar_b64Val (hcs a List.mem_cons_self)]
  | case4 cs hgroup hthree htwo =>
      obtain _ | ⟨a, _ | ⟨b, _ | ⟨c, _ | ⟨d, rest⟩⟩⟩⟩ := cs
      · rfl
      · exact absurd rfl hlen
      · exact absurd rfl (htwo a b)
      · exact absurd rfl (hthree a b c)
      · exact absurd rfl (hgroup a b c d rest)

theorem length_cleared (cs : List UInt8) : (cleared cs).length = cs.length := by
  fun_induction cleared cs with
  | case1 a b c d rest ih => simp only [List.length_cons, ih]
  | case2 a b c => rfl
  | case3 a b => rfl
  | case4 cs => rfl

/-- Clearing the low bits of a value changes nothing exactly if they are not set. -/
theorem lowBits_iff : ∀ v < 64,
    (v / 4 * 4 = v ↔ ∀ b ∈ [v.testBit 1, v.testBit 0], b = false) ∧
      (v / 16 * 16 = v ↔
        ∀ b ∈ [v.testBit 3, v.testBit 2, v.testBit 1, v.testBit 0], b = false) := by
  decide

theorem sextetChar_eq_iff {c : UInt8} (hc : InAlphabet c) {v : ℕ} (hv : v < 64) :
    sextetChar v = c ↔ v = (b64Val c).toNat := by
  constructor
  · intro h
    rw [← h, b64Val_sextetChar hv, Int.toNat_natCast]
  · rintro rfl
    exact sextetChar_b64Val hc

theorem unusedBits_group (a b c d : UInt8) (rest : List UInt8) :
    unusedBits (a :: b :: c :: d :: rest) = unusedBits rest := by
  have hgroup : (a :: b :: c :: d :: rest).flatMap sextetBits =
      (sextetBits a ++ sextetBits b ++ sextetBits c ++ sextetBits d) ++
        rest.flatMap sextetBits := by
    simp only [List.flatMap_cons, List.append_assoc]
  have hlen : (sextetBits a ++ sextetBits b ++ sextetBits c ++ sextetBits d).length = 24 := rfl
  have hcount : 8 * (6 * (a :: b :: c :: d :: rest).length / 8) =
      (sextetBits a ++ sextetBits b ++ sextetBits c ++ sextetBits d).length +
        8 * (6 * rest.length / 8) := by
    rw [hlen]
    simp only [List.length_cons]
    omega
  rw [unusedBits, hgroup, hcount, List.drop_length_add_append, unusedBits]

/-- No bits are cleared exactly if no unused one is set. -/
theorem cleared_eq_iff {cs : List UInt8} (hcs : ∀ c ∈ cs, InAlphabet c)
    (hlen : cs.length % 4 ≠ 1) : cleared cs = cs ↔ ∀ b ∈ unusedBits cs, b = false := by
  fun_induction cleared cs with
  | case1 a b c d rest ih =>
      simp only [List.forall_mem_cons] at hcs
      rw [length_group_mod] at hlen
      simp only [List.cons.injEq, true_and, unusedBits_group, ih hcs.2.2.2.2 hlen]
  | case2 a b c =>
      have hc : InAlphabet c := hcs c (by simp)
      have hbits := b64Val_lt c
      have hunused : unusedBits [a, b, c] =
          [(b64Val c).toNat.testBit 1, (b64Val c).toNat.testBit 0] := by
        simp [unusedBits, sextetBits, List.range, List.range.loop]
      simp only [List.cons.injEq, true_and, and_true]
      rw [sextetChar_eq_iff hc (by omega), (lowBits_iff _ hbits).1, hunused]
  | case3 a b =>
      have hb : InAlphabet b := hcs b (by simp)
      have hbits := b64Val_lt b
      have hunused : unusedBits [a, b] = [(b64Val b).toNat.testBit 3, (b64Val b).toNat.testBit 2,
          (b64Val b).toNat.testBit 1, (b64Val b).toNat.testBit 0] := by
        simp [unusedBits, sextetBits, List.range, List.range.loop]
      simp only [List.cons.injEq, true_and, and_true]
      rw [sextetChar_eq_iff hb (by omega), (lowBits_iff _ hbits).2, hunused]
  | case4 cs hgroup hthree htwo =>
      match cs with
      | [] => simp [unusedBits]
      | [a] => exact absurd rfl hlen
      | [a, b] => exact absurd rfl (htwo a b)
      | [a, b, c] => exact absurd rfl (hthree a b c)
      | a :: b :: c :: d :: rest => exact absurd rfl (hgroup a b c d rest)

/-! ## Texts and their normal texts -/

/-- The padding that a text must have to be of whole groups. -/
theorem length_mod_iff {k : ℕ} {pad : List UInt8} (hpad : PadFor k pad) :
    (k + pad.length) % 4 = 0 ↔ pad = padding (6 * k / 8) := by
  have hlt : k % 4 < 4 := Nat.mod_lt _ (by decide)
  rw [PadFor] at hpad
  rw [padding]
  split at hpad
  next hzero =>
    rw [hpad, show 6 * k / 8 % 3 = 0 by omega]
    simpa using hzero
  next hone => exact absurd hpad id
  next htwo =>
    rw [show 6 * k / 8 % 3 = 1 by omega]
    rcases hpad with rfl | rfl
    · simp [htwo]
    · simp
      omega
  next hzero hone htwo =>
    replace hzero : k % 4 ≠ 0 := hzero
    replace hone : k % 4 ≠ 1 := hone
    replace htwo : k % 4 ≠ 2 := htwo
    have hthree : k % 4 = 3 := by omega
    rw [show 6 * k / 8 % 3 = 2 by omega]
    rcases hpad with rfl | rfl
    · simp [hthree]
    · simp
      omega

/-- The bytes of a text are encoded to its normal text. -/
theorem sextetChars_bytesOf {cs : List UInt8} (hcs : ∀ c ∈ cs, InAlphabet c)
    (hlen : cs.length % 4 ≠ 1) :
    sextetChars (bytesOf cs) ++ padding (bytesOf cs).length = normalText cs := by
  rw [normalText, ← sextetChars_decodeGroups hcs hlen, decodeGroups_eq]

theorem length_bytesOf (cs : List UInt8) : (bytesOf cs).length = 6 * cs.length / 8 := by
  rw [← decodeGroups_eq, length_decodeGroups]

theorem PadFor.mod_ne_one {k : ℕ} {pad : List UInt8} (h : PadFor k pad) : k % 4 ≠ 1 := by
  intro hone
  rw [PadFor, hone] at h
  exact h

/-- For every string that `b64_decode` takes: `b64_encode` writes the normal text for its bytes,
which is the string itself exactly if it is of whole groups and sets no unused bit; and two
such strings have the same bytes exactly if they have the same normal text. -/
theorem b64Decode_normalText {s : List UInt8} (hs : 0 ∉ s)
    {dest out : List UInt8} (hrun : b64Decode (s ++ [0]) dest dest.length = .ok (0, out)) :
    ∃ cs, IsText s cs ∧ out = bytesOf cs ++ dest.drop (bytesOf cs).length ∧
      b64Encode (bytesOf cs) (bytesOf cs).length = .ok (normalText cs ++ [0]) ∧
      (normalText cs = s ↔ Strict s cs) ∧
      ∀ s' cs', IsText s' cs' → (bytesOf cs' = bytesOf cs ↔ normalText cs' = normalText cs) := by
  have houtcome := b64Decode_outcome hs dest
  rw [hrun] at houtcome
  generalize hres : (Except.ok (0, out) : Exec (ℤ × List UInt8)) = res at houtcome
  cases houtcome with
  | noMemory out' hroom =>
      exact absurd (Prod.mk.inj (Except.ok.inj hres)).1 (by decide)
  | overflow hfull => cases hres
  | invalid out' hfull hpad =>
      exact absurd (Prod.mk.inj (Except.ok.inj hres)).1 (by decide)
  | decoded hfull hpad hroom =>
      have hout := (Prod.mk.inj (Except.ok.inj hres)).2
      rw [List.nil_append, decodeGroups_eq] at hout
      have htext : IsText s (front s) := isText_iff.mpr ⟨rfl, hpad⟩
      have hmod := hpad.mod_ne_one
      refine ⟨front s, htext, hout, ?_, ?_, ?_⟩
      · rw [b64Encode_eq, sextetChars_bytesOf htext.1 hmod]
      · have hcleared := cleared_eq_iff htext.1 hmod
        have hwhole := length_mod_iff hpad
        rw [← List.length_append, front_append_behind] at hwhole
        rw [Strict, ← hcleared, hwhole, normalText, length_bytesOf]
        conv_lhs => rhs; rw [← front_append_behind s]
        constructor
        · intro h
          obtain ⟨hfront, hback⟩ := List.append_inj h (length_cleared _)
          exact ⟨hback.symm, hfront⟩
        · rintro ⟨hback, hfront⟩
          rw [hfront, ← hback]
      · intro s' cs' htext'
        obtain ⟨pad', hpad', -⟩ := htext'.2
        rw [← sextetChars_bytesOf htext.1 hmod, ← sextetChars_bytesOf htext'.1 hpad'.mod_ne_one]
        constructor
        · intro h
          rw [h]
        · intro h
          have hstrip := congrArg (List.rdropWhile (· == chr '=')) h
          rw [rdropWhile_encoded, rdropWhile_encoded] at hstrip
          rw [← decodeGroups_sextetChars (bytesOf cs'), hstrip, decodeGroups_sextetChars]

/-- The string `YR`, which has the bytes of `YQ==`. -/
theorem b64Decode_normalText_oneByte :
    ∃ cs, IsText (ascii "YR") cs ∧
      b64Encode (bytesOf cs) (bytesOf cs).length = .ok (normalText cs ++ [0]) ∧
      (normalText cs = ascii "YR" ↔ Strict (ascii "YR") cs) ∧
      ∀ s' cs', IsText s' cs' →
        (bytesOf cs' = bytesOf cs ↔ normalText cs' = normalText cs) := by
  obtain ⟨cs, htext, -, hrest⟩ := b64Decode_normalText (s := ascii "YR") (by decide)
    (by decide : b64Decode (ascii "YR" ++ [0]) [0, 0] [(0 : UInt8), 0].length =
      .ok (0, ascii "a" ++ [0]))
  exact ⟨cs, htext, hrest⟩

end Hlibc.Base64
