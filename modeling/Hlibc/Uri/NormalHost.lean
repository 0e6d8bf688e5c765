import Hlibc.Ipv6Norm
import Hlibc.Uri.NormalScheme
import Hlibc.Uri.Safety

/-!
# Normalised hosts

`uri_normalize_host` classifies the host with `parse_host` and then reads it again.  It
writes a registered name in its canonical spelling; of an address without brackets it
writes nothing, of one between brackets a colon, and a literal of a later version it refuses
at its closing bracket.
-/

set_option autoImplicit false

namespace Hlibc.Uri

open Grammar Inet

/-! ## The classes of hosts -/

/-- The digits and dots in front are an IPv4 address. -/
def Ipv4Front (w : List UInt8) : Prop := (scan (startsChar isDigitOrDot) w).1 ∈ ipv4Address

section Classes

variable {src w r : List UInt8} {pos : ℕ}

theorem parseHost_of_ipv4Front (h : TextAt src pos w) (hw : Ipv4Front w) :
    ∃ p, parseHost src pos = .ok (0, p, .ipv4) :=
  ⟨_, parseHost_ipv4 h (Prod.eta _).symm hw⟩

/-- No bracket and no address in front: the host is a name. -/
theorem parseHost_of_name (h : TextAt src pos w) (hhead : w.headD 0 ≠ chr '[')
    (hw : ¬ Ipv4Front w) : parseHost src pos = .ok (0, pos, .name) := by
  rw [parseHost_noBracket h hhead]
  rcases tryIpv4_cases h.string (Prod.eta (scan (startsChar isDigitOrDot) w)).symm with
      ⟨hmem, -⟩ | ⟨-, hloop⟩
  · exact absurd hmem hw
  · rw [hloop]
    rfl

/-- Behind a bracket `parse_host` finds one of the two kinds of literals. -/
theorem parseHost_bracket_cases {p : ℕ} {type : HostType} (h : StringAt src pos (chr '[' :: r))
    (hrun : parseHost src pos = .ok (0, p, type)) :
    p = pos ∧ (type = .ipvf ∧ (∃ q, parseIpvf src pos = .ok (0, q)) ∨ type = .ipv6) := by
  refine ⟨parseHost_bracket h rfl hrun, ?_⟩
  rw [parseHost, Exec.bind_eq_ok] at hrun
  obtain ⟨⟨code, q⟩, hipvf, hrun⟩ := hrun
  simp only at hrun
  by_cases hcode : code = 0
  · subst hcode
    rw [if_pos rfl] at hrun
    obtain ⟨-, hrun⟩ := Prod.mk.inj (Except.ok.inj hrun)
    exact Or.inl ⟨(Prod.mk.inj hrun).2.symm, q, hipvf⟩
  obtain rfl := parseIpvf_pos hipvf hcode
  have hread : readByte src q = .ok (chr '[') := h.read
  rw [if_neg hcode, hread, Exec.ok_bind, if_pos rfl, Exec.bind_eq_ok] at hrun
  obtain ⟨copied, -, hrun⟩ := hrun
  right
  rcases copied with - | host
  · exact absurd (Prod.mk.inj (Except.ok.inj hrun)).1 (by decide)
  · obtain ⟨res, -, hrun⟩ := Exec.bind_eq_ok.mp hrun
    by_cases hres : res.1 ≠ 0
    · rw [if_pos hres] at hrun
      exact absurd (Prod.mk.inj (Except.ok.inj hrun)).1 (by decide)
    · rw [if_neg hres] at hrun
      exact (Prod.mk.inj (Prod.mk.inj (Except.ok.inj hrun)).2).2.symm

theorem parseHost_of_bracket {x : List UInt8} (h : StringAt src pos (chr '[' :: (x ++ [chr ']'])))
    (hx : chr ']' ∉ x) (hshort : x.length < 40) {bin addr : List UInt8} (hbin : bin.length = 16)
    (hrun : ipv6ToBin (x ++ [0]) bin = .ok (0, addr)) :
    parseHost src pos = .ok (0, pos, .ipv6) := by
  have hzero : 0 ∉ x := fun hmem => h.zero_notMem (by simp [hmem])
  obtain ⟨gs, c, vs, haccepts, hfits⟩ :=
    (ipv6ToBin_zero_iff hzero [] (Nat.le_of_eq hbin.symm)).mp ⟨addr, hrun⟩
  have hipvf : parseIpvf src pos = .ok (EINVAL, pos) := by
    rcases ipvfFront_cases h with ⟨d, r, heq, hd, -⟩ | ⟨-, hfront⟩
    · rcases haccepts.written.front with rfl | hfront
      · exact absurd (List.cons.inj heq).1 (by decide)
      · exfalso
        rcases hfront with ⟨e, s', rfl, he⟩ | ⟨s', rfl⟩
        · rw [List.cons_append] at heq
          rw [(List.cons.inj heq).1] at he
          exact absurd he (by decide)
        · exact absurd (List.cons.inj heq).1 (by decide)
    · simp only [parseIpvf, hfront, Exec.ok_bind, if_true]
  have hread : readByte src pos = .ok (chr '[') := h.read
  have hcode : ¬ (EINVAL : ℤ) = 0 := by decide
  have hchars : ∀ c ∈ x, (c != chr ']') = true := by
    intro c hc
    rw [bne_iff_ne]
    rintro rfl
    exact hx hc
  have hcopy : ∃ junk, loop (copyBracketPass src) 41
      { i := 0, pos := pos + 1, host := List.replicate 40 0 } = .ok (some (x ++ 0 :: junk)) := by
    rcases copyBracket_loop (y := [chr ']']) (by decide) x [] (List.replicate 40 0) (pos + 1) 41
        h.tail hchars rfl rfl with ⟨hlong, -⟩ | ⟨-, hnil, -⟩ | ⟨-, -, junk, hloop⟩
    · exact absurd hshort (Nat.not_lt.mpr hlong)
    · cases hnil
    · exact ⟨junk, hloop⟩
  obtain ⟨junk, hloop⟩ := hcopy
  obtain ⟨out, hout⟩ : ∃ out, ipv6ToBin (x ++ 0 :: junk) (List.replicate 16 0) = .ok (0, out) :=
    (ipv6ToBin_zero_iff hzero junk (by simp)).mpr ⟨gs, c, vs, haccepts, by rwa [hbin] at hfits⟩
  simp only [parseHost, hipvf, Exec.ok_bind, if_neg hcode, hread, if_true, hloop, hout]
  rfl

end Classes

/-! ## The text between brackets -/

section Brackets

variable {src y : List UInt8} {pos : ℕ}

/-- What `uri_normalize_host` copies of the text between brackets: all of it, if the closing
bracket ends the host and stands among the first forty characters. -/
theorem bracketText_loop (hstop : startsChar (· != chr ']') y = false) (rest : List UInt8) :
    ∀ (done junk : List UInt8) (budget : ℕ), StringAt src (pos + done.length) (rest ++ y) →
      (∀ c ∈ rest, (c != chr ']') = true) → (done ++ junk).length = 40 →
      done.length + budget = 41 →
      (((done ++ rest).length < 40 ∧ y = [chr ']']) ∧ ∃ junk',
        loop (bracketTextPass src pos) budget (done.length, done ++ junk) =
          .ok (some (done ++ rest ++ 0 :: junk'))) ∨
      ¬ ((done ++ rest).length < 40 ∧ y = [chr ']']) ∧
        loop (bracketTextPass src pos) budget (done.length, done ++ junk) = .ok none := by
  induction rest with
  | nil =>
      intro done junk budget h _ hlen hbudget
      rw [List.length_append] at hlen
      obtain ⟨budget, rfl⟩ : ∃ k, budget = k + 1 := ⟨budget - 1, by omega⟩
      rw [List.append_nil]
      by_cases hfull : done.length < 40
      swap
      · refine Or.inr ⟨fun hboth => hfull hboth.1, loop_done ?_ budget⟩
        simp [bracketTextPass, andThen, hfull]
      obtain ⟨a, junk, rfl⟩ : ∃ a junk', junk = a :: junk' :=
        List.exists_cons_of_length_pos (by omega)
      have hread := h.read
      rw [List.nil_append] at hread
      cases y with
      | nil =>
          refine Or.inr ⟨fun hboth => List.cons_ne_nil _ _ hboth.2.symm, loop_done ?_ budget⟩
          simp [bracketTextPass, andThen, hfull, hread]
      | cons c y =>
          have hc : c = chr ']' := by
            simpa [startsChar] using hstop
          subst hc
          have hzero : chr ']' ≠ 0 := by decide
          have hbehind : readByte src (pos + done.length + 1) = .ok (y.headD 0) := h.tail.read
          cases y with
          | nil =>
              refine Or.inl ⟨⟨hfull, rfl⟩, junk, loop_done ?_ budget⟩
              simp [bracketTextPass, andThen, hfull, hread, hzero, hbehind, writeByte_append rfl]
          | cons d y =>
              have hd : d ≠ 0 := by
                rintro rfl
                exact h.zero_notMem (by simp)
              refine Or.inr ⟨fun hboth => ?_, loop_done ?_ budget⟩
              · exact List.cons_ne_nil _ _ (List.cons.inj hboth.2).2
              · simp [bracketTextPass, andThen, hfull, hread, hbehind, hd]
  | cons c rest ih =>
      intro done junk budget h hrest hlen hbudget
      rw [List.length_append] at hlen
      obtain ⟨budget, rfl⟩ : ∃ k, budget = k + 1 := ⟨budget - 1, by omega⟩
      by_cases hfull : done.length < 40
      swap
      · right
        refine ⟨fun hboth => ?_, loop_done ?_ budget⟩
        · have hlong := hboth.1
          rw [List.length_append] at hlong
          omega
        · simp [bracketTextPass, andThen, hfull]
      obtain ⟨a, junk, rfl⟩ : ∃ a junk', junk = a :: junk' :=
        List.exists_cons_of_length_pos (by omega)
      have hc : c ≠ chr ']' := by
        simpa using hrest c List.mem_cons_self
      have hzero : c ≠ 0 := by
        rintro rfl
        exact h.zero_notMem List.mem_cons_self
      have hread : readByte src (pos + done.length) = .ok c := h.read
      have hpass : bracketTextPass src pos (done.length, done ++ a :: junk) =
          .ok (.next ((done ++ [c]).length, done ++ [c] ++ junk)) := by
        simp [bracketTextPass, andThen, hfull, hread, hzero, hc, writeByte_append rfl]
      rw [loop_next hpass, List.append_cons done c rest]
      refine ih _ _ _ ?_ (fun d hd => hrest d (List.mem_cons_of_mem c hd)) ?_ ?_
      · rw [List.length_append, List.length_singleton, ← Nat.add_assoc]
        exact h.tail
      · rw [← hlen]
        simp
      · rw [List.length_append, List.length_singleton]
        omega

/-- The text between brackets, if the host is a text between brackets. -/
theorem bracketText_eq {r : List UInt8} (h : StringAt src pos r) :
    (∃ x junk, r = x ++ [chr ']'] ∧ chr ']' ∉ x ∧ x.length < 40 ∧
      loop (bracketTextPass src pos) 41 (0, List.replicate 40 0) = .ok (some (x ++ 0 :: junk))) ∨
    (¬ ∃ x, r = x ++ [chr ']'] ∧ chr ']' ∉ x ∧ x.length < 40) ∧
      loop (bracketTextPass src pos) 41 (0, List.replicate 40 0) = .ok none := by
  obtain ⟨x, y, hscan⟩ : ∃ x y, scan (startsChar (· != chr ']')) r = (x, y) := ⟨_, _, rfl⟩
  obtain ⟨hchars, hstop, rfl⟩ := scan_chars_iff.mp hscan
  have hx : chr ']' ∉ x := fun hmem => absurd (hchars _ hmem) (by decide)
  rcases bracketText_loop hstop x [] (List.replicate 40 0) 41 h hchars rfl rfl with
      ⟨⟨hshort, rfl⟩, junk, hloop⟩ | ⟨hnot, hloop⟩
  · exact Or.inl ⟨x, junk, rfl, hx, hshort, hloop⟩
  · refine Or.inr ⟨?_, hloop⟩
    rintro ⟨x', heq, hx', hshort⟩
    have hchars' : ∀ c ∈ x', (c != chr ']') = true := by
      intro c hc
      rw [bne_iff_ne]
      rintro rfl
      exact hx' hc
    have hstop' : startsChar (· != chr ']') [chr ']'] = false := by decide
    obtain ⟨rfl, rfl⟩ := scan_chars_unique hscan hchars' hstop' heq
    exact hnot ⟨hshort, rfl⟩

end Brackets

/-! ## Addresses between brackets -/

/-- An address between brackets that `ipv6_norm` can write: with some contents of its array,
no group behind the first is stored as two bytes that are not zero. -/
def BracketNormal (s : List UInt8) : Prop :=
  ∃ x, s = chr '[' :: (x ++ [chr ']']) ∧ chr ']' ∉ x ∧ x.length < 40 ∧
    ∃ (bin : Buffer 16) (addr : List UInt8),
      ipv6ToBin (x ++ [0]) bin.bytes = .ok (0, addr) ∧ Sparse addr

section Ipv6

variable {s dest out : List UInt8} {budget : ℕ} {bin : Buffer 16}

theorem strcat_bracket (a d : UInt8) (rest : List UInt8) :
    strcat (a :: chr ':' :: 0 :: d :: rest) 1 (ascii "]") =
      .ok (a :: chr ':' :: chr ']' :: 0 :: rest) := by
  have hcolon : whilePass
      (fun pos => (· != 0) <$> readByte (a :: chr ':' :: 0 :: d :: rest) pos) 1 =
        .ok (.next 2) := by
    simp only [whilePass, readByte_cons_succ, readByte_cons_zero]
    rfl
  have hend : whilePass (fun pos => (· != 0) <$> readByte (a :: chr ':' :: 0 :: d :: rest) pos) 2 =
      .ok (.done 2) := by
    simp only [whilePass, readByte_cons_succ, readByte_cons_zero]
    rfl
  have hlen : strlen (a :: chr ':' :: 0 :: d :: rest) 1 = .ok 1 := by
    rw [strlen, whileLoop, loop_next hcolon, List.length_cons, loop_done hend]
    rfl
  have hwrite : writeBytes (([a, chr ':'] ++ 0 :: d :: rest)) 2 [chr ']', 0] =
      .ok ([a, chr ':'] ++ [chr ']', 0] ++ rest) :=
    writeBytes_append rfl (by simp)
  rw [strcat, hlen]
  exact hwrite

/-- The text of `ipv6_norm` and the closing bracket, written behind the opening one. -/
theorem write_bracket (a : UInt8) {room : List UInt8} (hroom : 3 ≤ room.length) :
    (do let dest ← writeBytes (chr '[' :: room) 1 [chr ':', 0]
        let dest ← strcat dest 1 (ascii "]")
        .ok (0, dest) : Exec (ℤ × List UInt8)) =
      .ok (0, ascii "[:]" ++ 0 :: (a :: room).drop 4) := by
  obtain ⟨b, c, d, rest, rfl⟩ : ∃ b c d r, room = b :: c :: d :: r := by
    match room, hroom with
    | b :: c :: d :: r, _ => exact ⟨b, c, d, r, rfl⟩
  have hwrite : writeBytes ([chr '['] ++ b :: c :: d :: rest) 1 [chr ':', 0] =
      .ok ([chr '['] ++ [chr ':', 0] ++ d :: rest) :=
    writeBytes_append rfl (by simp)
  have hwrite' : writeBytes (chr '[' :: b :: c :: d :: rest) 1 [chr ':', 0] =
      .ok (chr '[' :: chr ':' :: 0 :: d :: rest) := hwrite
  rw [hwrite', Exec.ok_bind, strcat_bracket]
  rfl

/-- An address that `ipv6_norm` can write becomes a colon between brackets. -/
theorem normalizeIpv6_iff {r : List UInt8} (hs : Ascii (chr '[' :: r))
    (hroom : (chr '[' :: r).length < dest.length) :
    normalizeIpv6 budget bin.bytes (chr '[' :: r ++ [0]) 0 dest = .ok (0, out) ↔
      (∃ x, r = x ++ [chr ']'] ∧ chr ']' ∉ x ∧ x.length < 40 ∧
        ∃ addr, ipv6ToBin (x ++ [0]) bin.bytes = .ok (0, addr) ∧ Sparse addr) ∧
      out = ascii "[:]" ++ 0 :: dest.drop 4 := by
  have htext := TextAt.start hs
  have hread : readByte (chr '[' :: r ++ [0]) 0 = .ok (chr '[') := htext.read
  obtain ⟨a, room, rfl⟩ := List.exists_cons_of_length_pos (Nat.lt_of_le_of_lt (Nat.zero_le _) hroom)
  have hfirst : writeByte (a :: room) 0 (chr '[') = .ok (chr '[' :: room) :=
    @writeByte_append [] room 0 rfl a (chr '[')
  rw [normalizeIpv6, hread, Exec.ok_bind, if_neg (not_not_intro rfl), hfirst, Exec.ok_bind]
  rcases bracketText_eq htext.tail.string with ⟨x, junk, rfl, hx, hshort, hloop⟩ | ⟨hnot, hloop⟩
  swap
  · rw [hloop, Exec.ok_bind]
    refine iff_of_false (fun h => ?_) ?_
    · exact absurd (Prod.mk.inj (Except.ok.inj h)).1 (by decide)
    · rintro ⟨⟨x, heq, hx, hshort, -⟩, -⟩
      exact hnot ⟨x, heq, hx, hshort⟩
  have hzero : 0 ∉ x := by
    intro hmem
    exact (hs 0 (List.mem_cons_of_mem _ (List.mem_append_left _ hmem))).1 rfl
  have hwrites : ∀ addr, ipv6ToBin (x ++ [0]) bin.bytes = .ok (0, addr) →
      (do let dest ← writeBytes (chr '[' :: room) 1 [chr ':', 0]
          let dest ← strcat dest 1 (ascii "]")
          .ok (0, dest) : Exec (ℤ × List UInt8)) =
        .ok (0, ascii "[:]" ++ 0 :: (a :: room).drop 4) := by
    intro addr haddr
    have hne : x ≠ [] := by
      rintro rfl
      have hempty := (ipv6ToBin_rejects bin.bytes).1
      exact absurd (Prod.mk.inj (Except.ok.inj (hempty.symm.trans haddr))).1 (by decide)
    have hpos := List.length_pos_of_ne_nil hne
    simp only [List.length_cons, List.length_append, List.length_nil] at hroom
    exact write_bracket a (by omega)
  rw [hloop, Exec.ok_bind]
  simp only
  rw [Exec.bind_eq_ok]
  constructor
  · rintro ⟨⟨code, text⟩, hnorm, hrest⟩
    simp only at hrest
    by_cases hcode : code = 0
    swap
    · rw [if_pos hcode] at hrest
      exact absurd (Prod.mk.inj (Except.ok.inj hrest)).1 (by decide)
    subst hcode
    obtain ⟨⟨addr, haddr, hsparse⟩, rfl⟩ := (ipv6Norm_eq_zero hzero junk bin.length_bytes).mp hnorm
    rw [if_neg (not_not_intro rfl), hwrites addr haddr] at hrest
    exact ⟨⟨x, rfl, hx, hshort, addr, haddr, hsparse⟩, (Prod.mk.inj (Except.ok.inj hrest)).2.symm⟩
  · rintro ⟨⟨x', heq, -, -, addr, haddr, hsparse⟩, rfl⟩
    obtain rfl := List.append_cancel_right heq
    refine ⟨(0, [chr ':', 0]),
      (ipv6Norm_eq_zero hzero junk bin.length_bytes).mpr ⟨⟨addr, haddr, hsparse⟩, rfl⟩, ?_⟩
    simp only
    rw [if_neg (not_not_intro rfl), hwrites addr haddr]

end Ipv6

/-! ## Literals of a later version -/

section Ipvf

variable {src r w : List UInt8} {pos : ℕ} {d : UInt8}

/-- A byte read from the text on, other than the terminator, is in the text. -/
theorem StringAt.mem_of_read {c : UInt8} {q : ℕ} (h : StringAt src pos w) (hq : pos ≤ q)
    (hread : readByte src q = .ok c) (hc : c ≠ 0) : c ∈ w := by
  rw [readByte_eq_ok] at hread
  obtain ⟨k, rfl⟩ := Nat.exists_eq_add_of_le hq
  rw [← List.getElem?_drop, h.drop] at hread
  rcases List.mem_append.mp (List.mem_of_getElem? hread) with hmem | hmem
  · exact hmem
  · exact absurd (List.mem_singleton.mp hmem) hc

/-- A table is read inside for ASCII characters only. -/
theorem UnitTable.lt_of_inCset {cset : List ℕ} (htable : UnitTable cset)
    (h : inCset cset src pos = .ok true) : ∃ c, readByte src pos = .ok c ∧ c.toNat < 128 := by
  obtain ⟨c, hread, hentry⟩ := Exec.bind_eq_ok.mp h
  refine ⟨c, hread, by_contra fun hge => ?_⟩
  have hout : cset.length ≤ charIndex c := by
    rw [charIndex, if_neg hge, htable.length_eq]
    omega
  rw [List.getElem?_eq_none hout] at hentry
  cases hentry

theorem orElse_eq_false {x y : Exec Bool} :
    orElse x y = .ok false ↔ x = .ok false ∧ y = .ok false := by
  cases x with
  | error e => simp [orElse]
  | ok b => cases b <;> simp [orElse]

theorem exists_of_map_ok {f : UInt8 → Bool} {b : Bool} (h : f <$> readByte src pos = .ok b) :
    ∃ c, readByte src pos = .ok c ∧ f c = b := by
  cases hread : readByte src pos with
  | error e =>
      rw [hread] at h
      cases h
  | ok c =>
      rw [hread] at h
      exact ⟨c, rfl, Except.ok.inj h⟩

/-- The parts of a literal that `parse_ipvf` accepts; all of its characters are ASCII. -/
theorem ipvf_parts {p : ℕ} (h : StringAt src pos (chr '[' :: r))
    (hrun : parseIpvf src pos = .ok (0, p)) :
    (∃ d r₁, r = chr 'v' :: d :: r₁ ∧ isxdigit d = true ∧ chr ']' ∈ r₁) ∧
      ∀ i, pos + 3 ≤ i → i < p → ∃ c, readByte src i = .ok c ∧ c.toNat < 128 := by
  have hcode : ¬ (EINVAL : ℤ) = 0 := by decide
  rcases ipvfFront_cases h with ⟨d, r₁, rfl, hd, hfront⟩ | ⟨-, hfront⟩
  swap
  · simp only [parseIpvf, hfront, Exec.ok_bind, if_true] at hrun
    exact absurd (Prod.mk.inj (Except.ok.inj hrun)).1 hcode
  rw [parseIpvf, hfront, Exec.ok_bind, if_neg Bool.false_ne_true] at hrun
  obtain ⟨q, hdigits, hrun⟩ := Exec.bind_eq_ok.mp hrun
  obtain ⟨bad, hbad, hrun⟩ := Exec.bind_eq_ok.mp hrun
  cases bad with
  | true => exact absurd (Prod.mk.inj (Except.ok.inj hrun)).1 hcode
  | false =>
      rw [if_neg Bool.false_ne_true] at hrun
      obtain ⟨q', hchars, hrun⟩ := Exec.bind_eq_ok.mp hrun
      obtain ⟨c, hread, hrun⟩ := Exec.bind_eq_ok.mp hrun
      by_cases hc : c ≠ chr ']'
      · rw [if_pos hc] at hrun
        exact absurd (Prod.mk.inj (Except.ok.inj hrun)).1 hcode
      rw [if_neg hc] at hrun
      rw [not_not.mp hc] at hread
      obtain ⟨-, rfl⟩ := Prod.mk.inj (Except.ok.inj hrun)
      obtain ⟨hle, hpassed⟩ := whileLoop_eq_ok hdigits
      obtain ⟨hle', hpassed'⟩ := whileLoop_eq_ok hchars
      obtain ⟨hdot, hfirst⟩ := orElse_eq_false.mp hbad
      refine ⟨⟨d, r₁, rfl, hd, ?_⟩, fun i hi hlt => ?_⟩
      · exact h.tail.tail.tail.mem_of_read (by omega) hread (by decide)
      by_cases hbefore : i < q
      · obtain ⟨c, hc, hdigit⟩ := exists_of_map_ok (hpassed i hi hbefore)
        exact ⟨c, hc, isxdigit_lt hdigit⟩
      by_cases hat : i = q
      · obtain ⟨c, hc, hne⟩ := exists_of_map_ok hdot
        rw [bne_eq_false_iff_eq] at hne
        rw [hat, hc, hne]
        exact ⟨_, rfl, by decide⟩
      by_cases hnext : i = q + 1
      · rw [hnext]
        refine ipvfCset_unitTable.lt_of_inCset ?_
        cases hin : isIpvfCset src (q + 1) with
        | error e =>
            rw [hin] at hfirst
            cases hfirst
        | ok b =>
            rw [hin] at hfirst
            rw [isIpvfCset] at hin
            rw [hin]
            cases b with
            | true => rfl
            | false => cases hfirst
      by_cases hbefore' : i < q'
      · exact ipvfCset_unitTable.lt_of_inCset (hpassed' i (by omega) hbefore')
      · have hlast : i = q' := by omega
        rw [hlast, hread]
        exact ⟨_, rfl, by decide⟩

theorem normalizeVersionPass_next {c : UInt8} (h : TextAt src pos (c :: w))
    (hc : isxdigit c = true) (done room : List UInt8) (x : UInt8) :
    normalizeVersionPass src { pos := pos, dest := done ++ x :: room, off := done.length } =
      .ok (.next { pos := pos + 1, dest := done ++ [tolower c] ++ room,
                   off := (done ++ [tolower c]).length }) := by
  have hread : readByte src pos = .ok c := h.read
  simp only [normalizeVersionPass, hread, Exec.ok_bind, hc, if_true, writeByte_append rfl]
  simp

theorem normalizeVersionPass_stop (h : TextAt src pos w) (hw : startsChar isxdigit w = false)
    (dest : List UInt8) (off : ℕ) :
    normalizeVersionPass src { pos := pos, dest := dest, off := off } =
      .ok (.done { pos := pos, dest := dest, off := off }) := by
  have hnot : isxdigit (w.headD 0) = false := by
    cases w with
    | nil => decide
    | cons c w => exact hw
  simp only [normalizeVersionPass, h.read, Exec.ok_bind, hnot, Bool.false_eq_true, if_false]

/-- The closing bracket is in no table, so no literal is written. -/
theorem normalizeIpvf_refuses {dest : List UInt8} (hs : Ascii (chr '[' :: chr 'v' :: d :: r))
    (hd : isxdigit d = true) (hmem : chr ']' ∈ r)
    (hroom : (chr '[' :: chr 'v' :: d :: r).length < dest.length) :
    ∃ out, normalizeIpvf (chr '[' :: chr 'v' :: d :: r ++ [0]) 0 dest = .ok (EINVAL, out) := by
  have htext := TextAt.start hs
  have hfirst : readByte (chr '[' :: chr 'v' :: d :: r ++ [0]) 0 = .ok (chr '[') := htext.read
  have hsecond : readByte (chr '[' :: chr 'v' :: d :: r ++ [0]) (0 + 1) = .ok (chr 'v') :=
    htext.tail.read
  have hthird : readByte (chr '[' :: chr 'v' :: d :: r ++ [0]) (0 + 2) = .ok d :=
    htext.tail.tail.read
  simp only [List.length_cons] at hroom
  obtain ⟨a, b, c, room, rfl⟩ : ∃ a b c room, dest = a :: b :: c :: room := by
    match dest, hroom with
    | a :: b :: c :: room, _ => exact ⟨a, b, c, room, rfl⟩
  simp only [List.length_cons] at hroom
  obtain ⟨x, y, hscan⟩ : ∃ x y, scan (startsChar isxdigit) r = (x, y) := ⟨_, _, rfl⟩
  obtain ⟨hx, hstop, rfl⟩ := scan_chars_iff.mp hscan
  have hbracket : chr ']' ∈ y := by
    rcases List.mem_append.mp hmem with hfront | hback
    · exact absurd (hx _ hfront) (by decide)
    · exact hback
  rw [List.length_append] at hroom
  have hversion : TextAt (chr '[' :: chr 'v' :: d :: (x ++ y) ++ [0]) 3 (x ++ y) :=
    htext.tail.tail.tail
  have hbehind := hversion.append
  have hcopy := lower_loop
    (fun done room w a c pos h hc => normalizeVersionPass_next h hc done room a)
    (y.length + 5) x [chr '[', chr 'v', tolower d] room 3 hversion hx (by omega)
  rw [loop_done (normalizeVersionPass_stop hbehind hstop _ _)] at hcopy
  have hbudget : (chr '[' :: chr 'v' :: d :: (x ++ y) ++ [0]).length + 1 =
      x.length + (y.length + 5) := by
    simp only [List.length_cons, List.length_append, List.length_nil]
    omega
  have hloop : loop (normalizeVersionPass (chr '[' :: chr 'v' :: d :: (x ++ y) ++ [0]))
      ((chr '[' :: chr 'v' :: d :: (x ++ y) ++ [0]).length + 1)
      { pos := 0 + 3, dest := chr '[' :: chr 'v' :: tolower d :: room, off := 3 } = _ :=
    hbudget ▸ hcopy
  have hwrite₁ : writeByte (a :: b :: c :: room) 0 (chr '[') = .ok (chr '[' :: b :: c :: room) :=
    @writeByte_append [] (b :: c :: room) 0 rfl a (chr '[')
  have hwrite₂ : writeByte (chr '[' :: b :: c :: room) 1 (chr 'v') =
      .ok (chr '[' :: chr 'v' :: c :: room) :=
        @writeByte_append [chr '['] (c :: room) 1 rfl b (chr 'v')
  have hwrite₃ : writeByte (chr '[' :: chr 'v' :: c :: room) 2 (tolower d) =
      .ok (chr '[' :: chr 'v' :: tolower d :: room) :=
    @writeByte_append [chr '[', chr 'v'] room 2 rfl c (tolower d)
  simp only [normalizeIpvf, hfirst, hsecond, hthird, Exec.ok_bind, ne_eq, not_true_eq_false,
    if_false, hd, Bool.not_true, Bool.false_eq_true, hwrite₁, hwrite₂, hwrite₃, hloop,
    hbehind.read]
  by_cases hdot : y.headD 0 = chr '.'
  · rw [if_neg (not_not_intro hdot)]
    refine (normalizeWithCset_eq ipvfCset_unitTable hbehind _ ?_).2 ?_
    · rw [List.length_drop]
      omega
    · exact fun hunits => notMem_units (by decide) ⟨by decide, by decide⟩ hunits hbracket
  · rw [if_pos hdot]
    exact ⟨_, rfl⟩

end Ipvf

/-! ## Whole hosts -/

section Hosts

variable {s dest out : List UInt8} {budget : ℕ} {bin : Buffer 16}

/-- Of an address in front nothing is written, and what is behind it is not looked at. -/
theorem uriNormalizeHost_ipv4 (hs : Ascii s) (hfront : Ipv4Front s) :
    uriNormalizeHost budget bin.bytes (s ++ [0]) dest = .ok (0, dest) := by
  obtain ⟨p, hparse⟩ := parseHost_of_ipv4Front (TextAt.start hs) hfront
  rw [uriNormalizeHost, hparse]
  rfl

theorem uriNormalizeHost_name (hs : Ascii s) (hhead : s.headD 0 ≠ chr '[')
    (hfront : ¬ Ipv4Front s) : uriNormalizeHost budget bin.bytes (s ++ [0]) dest =
      normalizeWithCset (s ++ [0]) 0 dest 0 nameCset := by
  rw [uriNormalizeHost, parseHost_of_name (TextAt.start hs) hhead hfront]
  rfl

/-- Behind a bracket, 0 is returned for the addresses that `ipv6_norm` can write. -/
theorem uriNormalizeHost_bracket {r : List UInt8} (hs : Ascii (chr '[' :: r))
    (hroom : (chr '[' :: r).length < dest.length) :
    uriNormalizeHost budget bin.bytes (chr '[' :: r ++ [0]) dest = .ok (0, out) ↔
      (∃ x, r = x ++ [chr ']'] ∧ chr ']' ∉ x ∧ x.length < 40 ∧
        ∃ addr, ipv6ToBin (x ++ [0]) bin.bytes = .ok (0, addr) ∧ Sparse addr) ∧
      out = ascii "[:]" ++ 0 :: dest.drop 4 := by
  have htext := TextAt.start hs
  rw [← normalizeIpv6_iff hs hroom]
  constructor
  · intro hrun
    obtain ⟨⟨code, p, type⟩, hparse, hrun⟩ := Exec.bind_eq_ok.mp hrun
    simp only at hrun
    by_cases hcode : code = 0
    swap
    · rw [if_pos hcode] at hrun
      exact absurd (Prod.mk.inj (Except.ok.inj hrun)).1 (by decide)
    subst hcode
    rw [if_neg (not_not_intro rfl)] at hrun
    obtain ⟨rfl, ⟨rfl, q, hipvf⟩ | rfl⟩ := parseHost_bracket_cases htext.string hparse
    · obtain ⟨⟨d, r, rfl, hd, hmem⟩, -⟩ := ipvf_parts htext.string hipvf
      obtain ⟨out', hrefused⟩ := normalizeIpvf_refuses hs hd hmem hroom
      exact absurd (Prod.mk.inj (Except.ok.inj (hrefused.symm.trans hrun))).1 (by decide)
    · exact hrun
  · intro hrun
    obtain ⟨⟨x, rfl, hx, hshort, addr, haddr, -⟩, -⟩ := (normalizeIpv6_iff hs hroom).mp hrun
    rw [uriNormalizeHost, parseHost_of_bracket htext.string hx hshort bin.length_bytes haddr]
    exact hrun

theorem tabled_of_isDigitOrDot : ∀ c, isDigitOrDot c = true → tabled nameCset c = true := by
  refine forall_byte ?_
  decide +kernel

/-- Decoding changes no digit and no dot in front of the first other character. -/
theorem ipv4Front_canonical (w : List UInt8) :
    Ipv4Front (canonical (tabled nameCset) w) ↔ Ipv4Front (pctDecode w) := by
  have htable := tabled_of_isDigitOrDot
  have hstop : ∀ c w, isDigitOrDot c = false →
      (scan (startsChar isDigitOrDot) (c :: w)).1 = [] := fun c w hc =>
    congrArg Prod.fst (scan_neg (p := startsChar isDigitOrDot) (w := c :: w) hc)
  have hscan : ∀ bytes, (scan (startsChar isDigitOrDot) (pctEncode (tabled nameCset) bytes)).1 =
      (scan (startsChar isDigitOrDot) bytes).1 := by
    intro bytes
    induction bytes with
    | nil => rfl
    | cons c bytes ih =>
        rw [pctEncode_cons]
        cases hc : isDigitOrDot c with
        | true =>
            rw [spellByte_pos (htable c hc), List.singleton_append,
              scan_cons_pos (p := startsChar isDigitOrDot) hc,
              scan_cons_pos (p := startsChar isDigitOrDot) hc, ih]
        | false =>
            rw [hstop c bytes hc]
            cases htab : tabled nameCset c with
            | true =>
                rw [spellByte_pos htab]
                exact hstop c _ hc
            | false =>
                rw [spellByte_neg htab]
                exact hstop (chr '%') _ (by decide)
  rw [Ipv4Front, Ipv4Front, canonical, hscan]

theorem headD_ne_bracket_of_units (hs : s ∈ units (tabled nameCset)) : s.headD 0 ≠ chr '[' := by
  have hnot : chr '[' ∉ s := notMem_units (by decide) ⟨by decide, by decide⟩ hs
  cases s with
  | nil => decide
  | cons c s =>
      rintro rfl
      exact hnot List.mem_cons_self

/-- A registered name is written in its canonical spelling. -/
theorem name_writes (hs : Ascii s) (hunits : s ∈ units (tabled nameCset))
    (hfront : ¬ Ipv4Front s) : Writes (uriNormalizeHost budget bin.bytes) s
      (canonical (tabled nameCset) s) := by
  refine ⟨fun hzero => (nameCset_unitTable.canonical_ascii s 0 hzero).1 rfl, fun dest hroom => ?_⟩
  rw [uriNormalizeHost_name hs (headD_ne_bracket_of_units hunits) hfront]
  exact (normalizeWithCset_eq nameCset_unitTable (TextAt.start hs) [] hroom).1 hunits

theorem not_leaves_of_ipv4Front {y : List UInt8} (hs : Ascii s) (hfront : Ipv4Front s) :
    ¬ Leaves (uriNormalizeHost budget bin.bytes) s y :=
  not_leaves_of_unterminated fun dest _ hzero => ⟨dest, uriNormalizeHost_ipv4 hs hfront, hzero⟩

end Hosts

/-! ## When the results are stable -/

/-- `uri_normalize_host`, with the budget and the array that the source leaves open. -/
def normalizeHostWith (u : ℕ × Buffer 16) : List UInt8 → List UInt8 → Exec (ℤ × List UInt8) :=
  uriNormalizeHost u.1 u.2.bytes

/-- The host is no text with an IPv4 address in front, no address between brackets that
`ipv6_norm` can write, and no name that spells a text with an IPv4 address in front. -/
structure SettledHost (s : List UInt8) : Prop where
  front : ¬ Ipv4Front s
  bracket : ¬ BracketNormal s
  name : EachStarts (tabled nameCset) s → ¬ Ipv4Front (pctDecode s)

section Stability

variable {s : List UInt8}

theorem bracket_stable_iff {r : List UInt8} (hs : Ascii (chr '[' :: r)) :
    Stable normalizeHostWith (chr '[' :: r) ↔ ¬ BracketNormal (chr '[' :: r) := by
  constructor
  · rintro hstable ⟨x, heq, hx, hshort, bin, addr, haddr, hsparse⟩
    obtain rfl := (List.cons.inj heq).2
    have hrun : ∀ (budget : ℕ) (dest : List UInt8),
        (chr '[' :: (x ++ [chr ']'])).length < dest.length →
        uriNormalizeHost budget bin.bytes (chr '[' :: (x ++ [chr ']']) ++ [0]) dest =
          .ok (0, ascii "[:]" ++ 0 :: dest.drop 4) := fun budget dest hroom =>
      (uriNormalizeHost_bracket hs hroom).mpr ⟨⟨x, rfl, hx, hshort, addr, haddr, hsparse⟩, rfl⟩
    obtain ⟨dest, hroom, -⟩ := exists_unterminated (chr '[' :: (x ++ [chr ']'])).length
    obtain ⟨y, hy⟩ := hstable ⟨(0, bin), dest, _, hroom, hrun 0 dest hroom⟩
    obtain ⟨⟨hzero, hfirst⟩, -, hagain⟩ := hy (0, bin)
    obtain ⟨rest, hrest⟩ := hfirst dest hroom
    obtain rfl : y = ascii "[:]" := by
      have hout := (Prod.mk.inj (Except.ok.inj (hrest.symm.trans (hrun 0 dest hroom)))).2
      exact string_unique hzero (by decide) hout
    obtain ⟨dest', hroom', -⟩ := exists_unterminated (ascii "[:]").length
    obtain ⟨rest', hrun'⟩ := hagain dest' hroom'
    have hcolon :
        uriNormalizeHost 0 bin.bytes (ascii "[:]" ++ [0]) dest' = .ok (EINVAL, dest') := by
      have hparse : parseHost (ascii "[:]" ++ [0]) 0 = .ok (EINVAL, 0, .ipv6) := by decide
      rw [uriNormalizeHost, hparse]
      rfl
    exact absurd (Prod.mk.inj (Except.ok.inj (hcolon.symm.trans hrun'))).1 (by decide)
  · rintro hnot ⟨⟨budget, bin⟩, dest, out, hroom, hrun⟩
    obtain ⟨⟨x, rfl, hx, hshort, haddr⟩, -⟩ := (uriNormalizeHost_bracket hs hroom).mp hrun
    exact absurd ⟨x, rfl, hx, hshort, bin, haddr⟩ hnot

theorem name_stable_iff (hs : Ascii s) (hhead : s.headD 0 ≠ chr '[') (hfront : ¬ Ipv4Front s) :
    Stable normalizeHostWith s ↔
      (s ∈ units (tabled nameCset) → ¬ Ipv4Front (pctDecode s)) := by
  rw [← ipv4Front_canonical]
  have hascii := nameCset_unitTable.canonical_ascii s
  constructor
  · intro hstable hunits hcanonical
    have hwrites : ∀ u, Writes (normalizeHostWith u) s (canonical (tabled nameCset) s) :=
      fun u => name_writes hs hunits hfront
    obtain ⟨dest, hroom, -⟩ := exists_unterminated s.length
    have bin : Buffer 16 := ⟨List.replicate 16 0, rfl⟩
    obtain ⟨y, hy⟩ := hstable ⟨(0, bin), dest, _, hroom, (hwrites (0, bin)).2 dest hroom⟩
    obtain ⟨hfirst, hagain⟩ := hy (0, bin)
    obtain ⟨rest, hrest⟩ := hfirst.2 dest hroom
    have hout := (Prod.mk.inj (Except.ok.inj (hrest.symm.trans
      ((hwrites (0, bin)).2 dest hroom)))).2
    obtain rfl := string_unique hfirst.1 (hwrites (0, bin)).1 hout
    exact not_leaves_of_ipv4Front hascii hcanonical hagain
  · rintro hname ⟨u, dest, out, hroom, hrun⟩
    have hunits : s ∈ units (tabled nameCset) := by
      by_contra hnot
      obtain ⟨out', hrefused⟩ :=
        (normalizeWithCset_eq nameCset_unitTable (TextAt.start hs) [] hroom).2 hnot
      have hrun' := (uriNormalizeHost_name hs hhead hfront).symm.trans hrun
      exact absurd (Prod.mk.inj (Except.ok.inj (hrefused.symm.trans hrun'))).1 (by decide)
    refine ⟨canonical (tabled nameCset) s, fun u => ⟨(name_writes hs hunits hfront).leaves, ?_⟩⟩
    have hagain : Writes (normalizeHostWith u) (canonical (tabled nameCset) s) _ :=
      name_writes hascii (pctEncode_mem_units (pctDecode s)) (hname hunits)
    rw [canonical_canonical nameCset_unitTable.percent] at hagain
    exact hagain.leaves

/-- `uri_normalize_host` has stable results on the settled hosts. -/
theorem host_stable_iff (hs : Ascii s) : Stable normalizeHostWith s ↔ SettledHost s := by
  have hunits : EachStarts (tabled nameCset) s ↔ s ∈ units (tabled nameCset) :=
    eachStarts_iff nameCset_unitTable.hex
  by_cases hfront : Ipv4Front s
  · refine iff_of_false (fun hstable => ?_) fun hsettled => hsettled.front hfront
    obtain ⟨dest, hroom, -⟩ := exists_unterminated s.length
    obtain ⟨y, hy⟩ := hstable ⟨(0, ⟨List.replicate 16 0, rfl⟩), dest, dest, hroom,
      uriNormalizeHost_ipv4 hs hfront⟩
    exact not_leaves_of_ipv4Front hs hfront (hy (0, ⟨List.replicate 16 0, rfl⟩)).1
  by_cases hhead : s.headD 0 = chr '['
  · obtain ⟨r, rfl⟩ := exists_cons_of_headD hhead (by decide)
    rw [bracket_stable_iff hs]
    constructor
    · intro hnot
      refine ⟨hfront, hnot, fun hname => ?_⟩
      exact absurd hhead (headD_ne_bracket_of_units (hunits.mp hname))
    · exact SettledHost.bracket
  · rw [name_stable_iff hs hhead hfront, ← hunits]
    constructor
    · intro hname
      refine ⟨hfront, ?_, hname⟩
      rintro ⟨x, rfl, -⟩
      exact hhead rfl
    · exact SettledHost.name

/-- Both functions have stable results exactly on the texts that are no schemes, and on the
settled hosts. -/
theorem normalize_stable_iff (hs : Ascii s) :
    (Stable (fun _ : Unit => uriNormalizeScheme) s ↔ ¬ IsScheme s) ∧
      (Stable normalizeHostWith s ↔ SettledHost s) :=
  ⟨scheme_stable_iff hs, host_stable_iff hs⟩

theorem normalize_stable_iff_letter :
    (Stable (fun _ : Unit => uriNormalizeScheme) (ascii "Http") ↔ ¬ IsScheme (ascii "Http")) ∧
      (Stable normalizeHostWith (ascii "Http") ↔ SettledHost (ascii "Http")) :=
  normalize_stable_iff (by decide)

/-- Neither the scheme `Http` nor the host `1.2.3.4` is left as a string. -/
theorem normalize_unstable :
    ¬ Stable (fun _ : Unit => uriNormalizeScheme) (ascii "Http") ∧
      ¬ Stable normalizeHostWith (ascii "1.2.3.4") := by
  constructor
  · rw [scheme_stable_iff (by decide), not_not]
    exact ⟨chr 'H', ascii "ttp", rfl, by decide, by decide⟩
  · rw [host_stable_iff (by decide)]
    intro hsettled
    refine hsettled.front (mem_ipv4Address.mpr ⟨[1, 2, 3, 4], rfl, ?_⟩)
    decide

end Stability

/-! ## Hosts that keep their type -/

/-- `parse_ipvf` accepts the text up to its end. -/
def IpvfLiteral (s : List UInt8) : Prop := parseIpvf (s ++ [0]) 0 = .ok (0, s.length)

/-- A complete host: an address without brackets, a literal of a later version, or a name of
characters that stand for themselves. -/
inductive CompleteHost (s : List UInt8) : Prop where
  | ipv4 (h : s ∈ ipv4Address)
  | ipvf (hzero : 0 ∉ s) (h : IpvfLiteral s)
  | name (h : ∀ c ∈ s, tabled nameCset c = true)

/-- `uri_normalize_host` returns 0 and writes a string which `parse_host` finds to be of the
type it finds the host to be of. -/
def KeepsType (s : List UInt8) : Prop :=
  ∀ (u : ℕ × Buffer 16) (dest : List UInt8), s.length < dest.length →
    ∃ (y rest : List UInt8) (type : HostType) (p q : ℕ), 0 ∉ y ∧
      normalizeHostWith u (s ++ [0]) dest = .ok (0, y ++ 0 :: rest) ∧
      parseHost (s ++ [0]) 0 = .ok (0, p, type) ∧ parseHost (y ++ [0]) 0 = .ok (0, q, type)

section Types

variable {s : List UInt8}

theorem ascii_of_tabled {cset : List ℕ} (htable : UnitTable cset)
    (h : ∀ c ∈ s, tabled cset c = true) : Ascii s :=
  fun c hc => htable.ascii c (h c hc)

/-- All digits and dots of an address are in front. -/
theorem ipv4Front_of_mem (hs : s ∈ ipv4Address) : Ipv4Front s ∧ Ascii s := by
  have hchars := (ipv4Address_chars hs).1
  have hascii : ∀ c, isDigitOrDot c = true → c ≠ 0 ∧ c.toNat < 128 := fun c hc =>
    nameCset_unitTable.ascii c (tabled_of_isDigitOrDot c hc)
  have hscan : scan (startsChar isDigitOrDot) s = (s, []) :=
    scan_chars_iff.mpr ⟨hchars, rfl, (List.append_nil s).symm⟩
  exact ⟨by rw [Ipv4Front, hscan]; exact hs, fun c hc => hascii c (hchars c hc)⟩

theorem not_keepsType_of_ipv4Front (hs : Ascii s) (hfront : Ipv4Front s) : ¬ KeepsType s := by
  intro hkeeps
  obtain ⟨dest, hroom, hzero⟩ := exists_unterminated s.length
  obtain ⟨y, rest, type, p, q, -, hrun, -⟩ := hkeeps (0, ⟨List.replicate 16 0, rfl⟩) dest hroom
  have hsame := (uriNormalizeHost_ipv4 hs hfront).symm.trans hrun
  obtain rfl := (Prod.mk.inj (Except.ok.inj hsame)).2
  exact hzero (List.mem_append_right y List.mem_cons_self)

/-- The characters of a literal are ASCII, and it is refused. -/
theorem not_keepsType_of_ipvf (hzero : 0 ∉ s) (hs : IpvfLiteral s) :
    ¬ KeepsType s ∧ chr '[' ∈ s := by
  have hstart := StringAt.start hzero
  have hhead : s.headD 0 = chr '[' := by
    by_contra hne
    have hrefused := (parseIpvf_noBracket hstart hne).symm.trans hs
    exact absurd (Prod.mk.inj (Except.ok.inj hrefused)).1 (by decide)
  obtain ⟨r, rfl⟩ := exists_cons_of_headD hhead (by decide)
  obtain ⟨⟨d, r, rfl, hd, hmem⟩, hlt⟩ := ipvf_parts hstart hs
  have hdigit : d.toNat < 128 := isxdigit_lt hd
  have hascii : Ascii (chr '[' :: chr 'v' :: d :: r) := by
    intro c hc
    refine ⟨fun heq => hzero (heq ▸ hc), ?_⟩
    rcases List.mem_cons.mp hc with rfl | hc
    · decide
    rcases List.mem_cons.mp hc with rfl | hc
    · decide
    rcases List.mem_cons.mp hc with rfl | hc
    · exact hdigit
    obtain ⟨i, hi, rfl⟩ := List.mem_iff_getElem.mp hc
    obtain ⟨c, hread, hc⟩ := hlt (0 + 3 + i) (by omega) (by simp only [List.length_cons]; omega)
    have hsame : readByte (chr '[' :: chr 'v' :: d :: r ++ [0]) (0 + 3 + i) = .ok r[i] := by
      rw [readByte_eq_ok, ← List.getElem?_drop, hstart.tail.tail.tail.drop,
        List.getElem?_append_left hi, List.getElem?_eq_getElem hi]
    rwa [Except.ok.inj (hsame.symm.trans hread)]
  refine ⟨fun hkeeps => ?_, List.mem_cons_self⟩
  obtain ⟨dest, hroom, -⟩ := exists_unterminated (chr '[' :: chr 'v' :: d :: r).length
  obtain ⟨y, rest, type, p, q, -, hrun, -⟩ := hkeeps (0, ⟨List.replicate 16 0, rfl⟩) dest hroom
  have hparse : parseHost (chr '[' :: chr 'v' :: d :: r ++ [0]) 0 = .ok (0, 0, .ipvf) := by
    have hipvf : parseIpvf (chr '[' :: chr 'v' :: d :: r ++ [0]) 0 = _ := hs
    rw [parseHost, hipvf]
    rfl
  obtain ⟨out, hrefused⟩ := normalizeIpvf_refuses hascii hd hmem hroom
  have hcode : normalizeHostWith (0, ⟨List.replicate 16 0, rfl⟩)
      (chr '[' :: chr 'v' :: d :: r ++ [0]) dest = .ok (EINVAL, out) := by
    rw [normalizeHostWith, uriNormalizeHost, hparse]
    exact hrefused
  exact absurd (Prod.mk.inj (Except.ok.inj (hcode.symm.trans hrun))).1 (by decide)

/-- A name without an address in front is written as it is. -/
theorem keepsType_of_name (hs : ∀ c ∈ s, tabled nameCset c = true) (hfront : ¬ Ipv4Front s) :
    KeepsType s := by
  have hascii := ascii_of_tabled nameCset_unitTable hs
  have hunits := mem_units_of_forall hs
  have hparse := parseHost_of_name (TextAt.start hascii) (headD_ne_bracket_of_units hunits) hfront
  intro u dest hroom
  obtain ⟨hzero, hrun⟩ : Writes (normalizeHostWith u) s (canonical (tabled nameCset) s) :=
    name_writes hascii hunits hfront
  rw [canonical_of_forall nameCset_unitTable.percent hs] at hzero hrun
  exact ⟨s, _, .name, 0, 0, hzero, hrun dest hroom, hparse, hparse⟩

/-- Of the complete hosts, the names without an address in front are written and keep their
type. -/
theorem keepsType_iff (hs : CompleteHost s) :
    KeepsType s ↔ (∀ c ∈ s, tabled nameCset c = true) ∧ ¬ Ipv4Front s := by
  have hbracket : ¬ tabled nameCset (chr '[') = true := by decide
  cases hs with
  | ipv4 h =>
      obtain ⟨hfront, hascii⟩ := ipv4Front_of_mem h
      exact iff_of_false (not_keepsType_of_ipv4Front hascii hfront) fun hname => hname.2 hfront
  | ipvf hzero h =>
      obtain ⟨hnot, hmem⟩ := not_keepsType_of_ipvf hzero h
      exact iff_of_false hnot fun hname => hbracket (hname.1 _ hmem)
  | name h =>
      constructor
      · intro hkeeps
        refine ⟨h, fun hfront => ?_⟩
        exact not_keepsType_of_ipv4Front (ascii_of_tabled nameCset_unitTable h) hfront hkeeps
      · rintro ⟨-, hfront⟩
        exact keepsType_of_name h hfront

theorem keepsType_iff_localhost :
    KeepsType (ascii "localhost") ↔
      (∀ c ∈ ascii "localhost", tabled nameCset c = true) ∧ ¬ Ipv4Front (ascii "localhost") :=
  keepsType_iff (.name (by decide))

/-- The literal `[v1.a]` is refused. -/
theorem completeHost_refused :
    ¬ ∀ s : List UInt8, CompleteHost s → KeepsType s := by
  intro hall
  have hliteral : IpvfLiteral (ascii "[v1.a]") := by
    rw [IpvfLiteral]
    decide
  have hzero : 0 ∉ ascii "[v1.a]" := by decide
  exact (not_keepsType_of_ipvf hzero hliteral).1 (hall _ (.ipvf hzero hliteral))

end Types

end Hlibc.Uri
