import Hlibc.Crypto.Des.Standard
import Mathlib.Data.Fintype.Basic

/-!
# Keys with the same and with reversed round keys

`des_init` only places bits of the key, so two keys have the same round keys, or the same in
reversed order, exactly if certain bits of them agree.  Under keys with reversed round keys
encryption is the other key's decryption.
-/

set_option autoImplicit false

namespace Hlibc.Des

/-! ## Comparing placed bits -/

/-- Two lists of the same length have the same images if their entries have, one by one. -/
theorem map_eq_map_iff_zip {α β γ : Type*} (g : α → γ) (g' : β → γ) {l : List α} {l' : List β}
    (hlen : l.length = l'.length) :
    l.map g = l'.map g' ↔ ∀ p ∈ l.zip l', g p.1 = g' p.2 := by
  induction l generalizing l' with
  | nil =>
      obtain rfl := List.length_eq_zero_iff.mp hlen.symm
      simp
  | cons x l ih =>
      cases l' with
      | nil => cases hlen
      | cons y l' => simp [ih (Nat.succ.inj hlen)]

/-- The moves of every round key end in its 48 places, from left to right. -/
theorem ksMoves_places : ∀ moves ∈ ksMoves, moves.map Prod.snd = (List.range 48).reverse := by
  decide +kernel

theorem roundKeys_desInit_eq (ctx : DesContext) (key : BitVec 64) :
    roundKeys (desInit ctx key).2 = ksMoves.map fun moves => moveBits moves key := rfl

/-- Round keys are the same if the bits that are moved to the same place are. -/
theorem moveBits_eq_iff {key key' : BitVec 64} {moves moves' : List (ℕ × ℕ)}
    (hmoves : moves ∈ ksMoves) (hmoves' : moves' ∈ ksMoves) :
    moveBits moves key = moveBits moves' key' ↔
      ∀ p ∈ moves.zip moves', key.getLsbD p.1.1 = key'.getLsbD p.2.1 := by
  have hplaces := ksMoves_places moves hmoves
  have hplaces' := ksMoves_places moves' hmoves'
  have hlen : moves.length = moves'.length := by
    rw [← List.length_map Prod.snd, hplaces, ← hplaces', List.length_map]
  have hhigh : ∀ {l : List (ℕ × ℕ)} (k : BitVec 64) {i : ℕ},
      l.map Prod.snd = (List.range 48).reverse → 48 ≤ i → (moveBits l k).getLsbD i = false := by
    intro l k i hl hi
    apply getLsbD_moveBits_of_no_source
    intro p hp hpi
    have hplace : p.2 ∈ (List.range 48).reverse := hl ▸ List.mem_map_of_mem hp
    have hlt := List.mem_range.mp (List.mem_reverse.mp hplace)
    omega
  rw [← map_eq_map_iff_zip (fun p => key.getLsbD p.1) (fun p => key'.getLsbD p.1) hlen,
    ← bitsOf_moveBits (by decide) hplaces key, ← bitsOf_moveBits (by decide) hplaces' key']
  constructor
  · exact fun heq => congrArg (bitsOf 48) heq
  · intro heq
    apply BitVec.eq_of_getLsbD_eq
    intro i _
    by_cases hi : i < 48
    · have hmem : i ∈ (List.range 48).reverse := List.mem_reverse.mpr (List.mem_range.mpr hi)
      exact List.map_inj_left.mp heq i hmem
    · rw [hhigh key hplaces (Nat.le_of_not_lt hi), hhigh key' hplaces' (Nat.le_of_not_lt hi)]

/-- Which bits of two keys must agree for the round keys of the one to be those that the moves
`rounds` make from the other. -/
def links (rounds : List (List (ℕ × ℕ))) : List (ℕ × ℕ) :=
  (ksMoves.zip rounds).flatMap fun p => (p.1.zip p.2).map fun q => (q.1.1, q.2.1)

/-- The bits that must agree with bit `i`. -/
def linkedTo (rounds : List (List (ℕ × ℕ))) (i : ℕ) : List ℕ :=
  ((links rounds).filter fun p => p.2 == i).map Prod.fst

theorem mem_linkedTo {rounds : List (List (ℕ × ℕ))} {i j : ℕ} :
    j ∈ linkedTo rounds i ↔ (j, i) ∈ links rounds := by
  simp [linkedTo]

theorem roundKeys_eq_iff_links {key key' : BitVec 64} {rounds : List (List (ℕ × ℕ))}
    (hlen : rounds.length = ksMoves.length) (hrounds : ∀ moves ∈ rounds, moves ∈ ksMoves) :
    (ksMoves.map fun moves => moveBits moves key) = (rounds.map fun moves => moveBits moves key') ↔
      ∀ p ∈ links rounds, key.getLsbD p.1 = key'.getLsbD p.2 := by
  rw [map_eq_map_iff_zip _ _ hlen.symm]
  constructor
  · intro h p hp
    obtain ⟨r, hr, hpr⟩ := List.mem_flatMap.mp hp
    obtain ⟨q, hq, rfl⟩ := List.mem_map.mp hpr
    obtain ⟨hleft, hright⟩ := List.of_mem_zip hr
    exact (moveBits_eq_iff hleft (hrounds _ hright)).mp (h r hr) q hq
  · intro h r hr
    obtain ⟨hleft, hright⟩ := List.of_mem_zip hr
    exact (moveBits_eq_iff hleft (hrounds _ hright)).mpr fun q hq =>
      h _ (List.mem_flatMap.mpr ⟨r, hr, List.mem_map_of_mem hq⟩)

/-! ## Masks -/

/-- The bits of a key that are no parity bits. -/
def keyMask : BitVec 64 := 0xFEFEFEFEFEFEFEFE

/-- The parts of a key: every other bit of the halves `C` and `D` that are chosen from it. -/
inductive KeyPart
  | c₀
  | c₁
  | d₀
  | d₁
  deriving DecidableEq

instance : Fintype KeyPart where
  elems := {.c₀, .c₁, .d₀, .d₁}
  complete n := by cases n <;> decide

/-- The bits of a part. -/
def keyPart : KeyPart → BitVec 64
  | .c₀ => 0x00E000E000F000F0
  | .c₁ => 0xE000E000F000F000
  | .d₀ => 0x001E001E000E000E
  | .d₁ => 0x1E001E000E000E00

/-- The bits between those of a part. -/
def otherPart : KeyPart → KeyPart
  | .c₀ => .c₁
  | .c₁ => .c₀
  | .d₀ => .d₁
  | .d₁ => .d₀

/-- The key whose bits are constant on every part. -/
def keyPattern (v : KeyPart → Bool) : BitVec 64 :=
  (if v .c₀ then keyPart .c₀ else 0) ||| (if v .c₁ then keyPart .c₁ else 0) |||
    (if v .d₀ then keyPart .d₀ else 0) ||| (if v .d₁ then keyPart .d₁ else 0)

/-- The parts are disjoint, and the mask is all of them. -/
theorem keyPart_spec : ∀ i < 64,
    (keyMask.getLsbD i = true ↔ ∃ n, (keyPart n).getLsbD i = true) ∧
      ∀ n n', (keyPart n).getLsbD i = true → (keyPart n').getLsbD i = true → n = n' := by
  decide +kernel

theorem getLsbD_keyPattern (v : KeyPart → Bool) (i : ℕ) :
    (keyPattern v).getLsbD i = true ↔ ∃ n, v n = true ∧ (keyPart n).getLsbD i = true := by
  have hpart : ∀ n, (if v n then keyPart n else 0).getLsbD i =
      (v n && (keyPart n).getLsbD i) := by
    intro n
    cases v n <;> simp
  simp only [keyPattern, BitVec.getLsbD_or, hpart, Bool.or_eq_true, Bool.and_eq_true]
  constructor
  · rintro (((h | h) | h) | h)
    exacts [⟨.c₀, h⟩, ⟨.c₁, h⟩, ⟨.d₀, h⟩, ⟨.d₁, h⟩]
  · rintro ⟨n, h⟩
    cases n <;> simp only [h, and_self, true_or, or_true]

theorem and_keyMask_eq_iff {key key' : BitVec 64} :
    key &&& keyMask = key' &&& keyMask ↔
      ∀ i, keyMask.getLsbD i = true → key.getLsbD i = key'.getLsbD i := by
  constructor
  · intro h i hi
    have hbit := congrArg (fun x => BitVec.getLsbD x i) h
    simpa [BitVec.getLsbD_and, hi] using hbit
  · intro h
    apply BitVec.eq_of_getLsbD_eq
    intro i _
    rw [BitVec.getLsbD_and, BitVec.getLsbD_and]
    cases hi : keyMask.getLsbD i with
    | false => simp
    | true => rw [h i hi]

/-- A key follows a pattern if its bits are constant on every part. -/
theorem and_keyMask_eq_keyPattern_iff {key : BitVec 64} {v : KeyPart → Bool} :
    key &&& keyMask = keyPattern v ↔
      ∀ n i, (keyPart n).getLsbD i = true → key.getLsbD i = v n := by
  have hlt : ∀ {n : KeyPart} {i : ℕ}, (keyPart n).getLsbD i = true → i < 64 := fun hi =>
    BitVec.lt_of_getLsbD hi
  constructor
  · intro h n i hi
    obtain ⟨hmask, hunique⟩ := keyPart_spec i (hlt hi)
    have hbit := congrArg (fun x => BitVec.getLsbD x i) h
    simp only [BitVec.getLsbD_and, hmask.mpr ⟨n, hi⟩, Bool.and_true] at hbit
    rw [hbit, Bool.eq_iff_iff, getLsbD_keyPattern]
    constructor
    · rintro ⟨n', hv, hi'⟩
      rwa [hunique n n' hi hi']
    · exact fun hv => ⟨n, hv, hi⟩
  · intro h
    apply BitVec.eq_of_getLsbD_eq
    intro i hi
    obtain ⟨hmask, -⟩ := keyPart_spec i hi
    rw [Bool.eq_iff_iff, getLsbD_keyPattern, BitVec.getLsbD_and, Bool.and_eq_true, hmask]
    constructor
    · rintro ⟨hkey, n, hn⟩
      exact ⟨n, (h n i hn).symm.trans hkey, hn⟩
    · rintro ⟨n, hv, hn⟩
      exact ⟨(h n i hn).trans hv, n, hn⟩

/-! ## The links of the key schedule -/

/-- Every bit but the parity bits is moved to some round key, to the same place for all keys. -/
theorem links_same : (∀ p ∈ links ksMoves, p.1 = p.2 ∧ keyMask.getLsbD p.1 = true) ∧
    ∀ i < 64, keyMask.getLsbD i = true → ∃ p ∈ links ksMoves, p.1 = i := by
  decide +kernel

/-- A bit of each part. -/
def partRoot : KeyPart → ℕ
  | .c₀ => 7
  | .c₁ => 15
  | .d₀ => 1
  | .d₁ => 9

/-- Reversed, every round key takes the bits of one part at the places of the other, and all
bits of a part are compared with each other. -/
theorem links_reverse :
    (∀ p ∈ links ksMoves.reverse, ∃ n, (keyPart (otherPart n)).getLsbD p.1 = true ∧
      (keyPart n).getLsbD p.2 = true) ∧
    ∀ n, (∀ i < 64, (keyPart n).getLsbD i = true →
        ∃ p ∈ links ksMoves.reverse, p.2 = i ∧ p.1 ∈ linkedTo ksMoves.reverse (partRoot n)) ∧
      ∀ i < 64, (keyPart (otherPart n)).getLsbD i = true →
        ∃ p ∈ links ksMoves.reverse, p.1 = i ∧ (keyPart n).getLsbD p.2 = true := by
  decide +kernel

theorem otherPart_otherPart (n : KeyPart) : otherPart (otherPart n) = n := by
  revert n
  decide

/-- Two keys have the same round keys exactly if they agree but for the parity bits. -/
theorem roundKeys_eq_iff (ctx ctx' : DesContext) (key key' : BitVec 64) :
    roundKeys (desInit ctx key).2 = roundKeys (desInit ctx' key').2 ↔
      key &&& keyMask = key' &&& keyMask := by
  obtain ⟨hsame, hall⟩ := links_same
  rw [roundKeys_desInit_eq, roundKeys_desInit_eq, roundKeys_eq_iff_links rfl fun _ h => h,
    and_keyMask_eq_iff]
  constructor
  · intro h i hi
    obtain ⟨p, hp, rfl⟩ := hall i (BitVec.lt_of_getLsbD hi) hi
    have hbit := h p hp
    rwa [← (hsame p hp).1] at hbit
  · intro h p hp
    obtain ⟨heq, hmask⟩ := hsame p hp
    rw [← heq]
    exact h _ hmask

/-- The keys `key` and `key'` are constant on the parts, and the one on the parts between those
of the other. -/
def Reversing (key key' : BitVec 64) : Prop :=
  ∃ v : KeyPart → Bool, key &&& keyMask = keyPattern v ∧
    key' &&& keyMask = keyPattern (v ∘ otherPart)

/-- Two keys have reversed round keys exactly if they are such a pair. -/
theorem roundKeys_reverse_iff (ctx ctx' : DesContext) (key key' : BitVec 64) :
    roundKeys (desInit ctx' key').2 = (roundKeys (desInit ctx key).2).reverse ↔
      Reversing key key' := by
  obtain ⟨hparts, hlinks⟩ := links_reverse
  rw [roundKeys_desInit_eq, roundKeys_desInit_eq, ← List.map_reverse,
    roundKeys_eq_iff_links List.length_reverse fun _ h => List.mem_reverse.mp h]
  constructor
  · intro h
    have hpart : ∀ n i, (keyPart n).getLsbD i = true →
        key.getLsbD i = key.getLsbD (partRoot n) := by
      intro n i hi
      obtain ⟨p, hp, rfl, hroot⟩ := (hlinks n).1 i (BitVec.lt_of_getLsbD hi) hi
      exact (h p hp).symm.trans (h _ (mem_linkedTo.mp hroot))
    refine ⟨fun n => key.getLsbD (partRoot n), and_keyMask_eq_keyPattern_iff.mpr hpart,
      and_keyMask_eq_keyPattern_iff.mpr fun n i hi => ?_⟩
    have hlt : i < 64 := BitVec.lt_of_getLsbD hi
    rw [← otherPart_otherPart n] at hi
    obtain ⟨p, hp, rfl, hother⟩ := (hlinks (otherPart n)).2 i hlt hi
    exact (h p hp).trans (hpart (otherPart n) _ hother)
  · rintro ⟨v, hkey, hkey'⟩ p hp
    obtain ⟨n, hleft, hright⟩ := hparts p hp
    have hbit := and_keyMask_eq_keyPattern_iff.mp hkey n _ hright
    have hbit' := and_keyMask_eq_keyPattern_iff.mp hkey' (otherPart n) _ hleft
    rw [Function.comp_apply, otherPart_otherPart] at hbit'
    exact hbit'.trans hbit.symm

/-! ## Weak keys -/

/-- The parity bits of a key play no role.  The round keys of two keys are the reversed of each
other exactly if the keys are constant on every other bit of the halves of the chosen key, and
the one where the other is between them; under such a pair, and under a key that is such a pair
with itself, encrypting twice gives the block back. -/
theorem desInit_keys (ctx ctx' : DesContext) (key key' : BitVec 64) :
    (roundKeys (desInit ctx key).2 = roundKeys (desInit ctx' key').2 ↔
      key &&& keyMask = key' &&& keyMask) ∧
    (roundKeys (desInit ctx' key').2 = (roundKeys (desInit ctx key).2).reverse ↔
      Reversing key key') ∧
    (Reversing key key' → ∀ block,
      desEncrypt (desInit ctx' key').2 (desEncrypt (desInit ctx key).2 block) = block) := by
  have hreverse := roundKeys_reverse_iff ctx ctx' key key'
  refine ⟨roundKeys_eq_iff ctx ctx' key key', hreverse, fun hpair block => ?_⟩
  rw [desEncrypt_eq_desRounds, desEncrypt_eq_desRounds, hreverse.mpr hpair]
  exact desRounds_reverse _ block

/-- A pair of different keys, and a key that is paired with itself. -/
theorem desInit_keys_pairs :
    desEncrypt (desInit ⟨Vector.replicate 16 0⟩ 0x1F011F010E010E01).2
        (desEncrypt (desInit ⟨Vector.replicate 16 0⟩ 0x011F011F010E010E).2 1) = 1 ∧
      desEncrypt (desInit ⟨Vector.replicate 16 0⟩ 0xE0E0E0E0F1F1F1F1).2
        (desEncrypt (desInit ⟨Vector.replicate 16 0⟩ 0xE0E0E0E0F1F1F1F1).2 1) = 1 :=
  ⟨(desInit_keys _ _ 0x011F011F010E010E 0x1F011F010E010E01).2.2
      ⟨fun n => n == .d₀, by decide, by decide⟩ 1,
    (desInit_keys _ _ 0xE0E0E0E0F1F1F1F1 0xE0E0E0E0F1F1F1F1).2.2
      ⟨fun n => n == .c₀ || n == .c₁, by decide, by decide⟩ 1⟩

end Hlibc.Des
