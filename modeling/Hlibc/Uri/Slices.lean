import Hlibc.Uri.Grammar
import Hlibc.Uri.Parse

/-!
# Slices of a text

What `struct uri_segments` holds for the components of a text: each slice starts where the
component stands, and a component that is absent has the null slice.
-/

set_option autoImplicit false

namespace Hlibc.Uri

/-! ## Components and their places -/

/-- The slice of a component that stands at `off`. -/
def viewAt (off : ℕ) : Option (List UInt8) → StringView
  | none => .null
  | some x => { str := some off, size := x.length }

@[simp] theorem behind_none (c : Char) : behind c none = [] := rfl

@[simp] theorem behind_some (c : Char) (x : List UInt8) : behind c (some x) = chr c :: x := rfl

@[simp] theorem before_none (c : Char) : before c none = [] := rfl

@[simp] theorem before_some (c : Char) (x : List UInt8) : before c (some x) = x ++ [chr c] := rfl

theorem notMem_before {c : Char} {o : Option (List UInt8)} {k : UInt8} (h : ∀ x ∈ o, k ∉ x)
    (hc : k ≠ chr c) : k ∉ before c o := by
  cases o with
  | none => exact List.not_mem_nil
  | some x =>
      rw [before_some, List.mem_append, List.mem_singleton, not_or]
      exact ⟨h x rfl, hc⟩

theorem notMem_behind {c : Char} {o : Option (List UInt8)} {k : UInt8} (h : ∀ x ∈ o, k ∉ x)
    (hc : k ≠ chr c) : k ∉ behind c o := by
  cases o with
  | none => exact List.not_mem_nil
  | some x =>
      rw [behind_some, List.mem_cons, not_or]
      exact ⟨hc, h x rfl⟩

theorem isSome_viewAt (off : ℕ) (o : Option (List UInt8)) :
    (viewAt off o).str.isSome = o.isSome := by
  cases o <;> rfl

/-- The type the parser gives to the hosts it accepts. -/
def plainType : List UInt8 → HostType
  | [] => .name
  | _ :: _ => .ipv4

/-- The slices of the components of a text, and the type of its host. -/
def Parts.place (parts : Parts) : UriSegments :=
  let hier := (before ':' parts.scheme).length
  let user := parts.authority.bind Authority.userinfo
  let host := hier + 2 + (before '@' user).length
  let path := hier + (authorityText parts.authority).length
  let query := path + parts.path.length
  { scheme := viewAt 0 parts.scheme
    userinfo := viewAt (hier + 2) user
    host := viewAt host (parts.authority.map Authority.host)
    port := viewAt (host + (parts.authority.elim [] Authority.host).length + 1)
      (parts.authority.bind Authority.port)
    path := { str := some path, size := parts.path.length }
    query := viewAt (query + 1) parts.query
    fragment := viewAt (query + (behind '?' parts.query).length + 1) parts.fragment
    hostType := parts.authority.elim .ipv4 fun a => plainType a.host }

/-! ## Reading slices -/

/-- The text of a slice. -/
def StringView.get (src : List UInt8) (v : StringView) : Option (List UInt8) :=
  v.str.map fun off => (src.drop off).take v.size

/-- The slices of `d` are these components. -/
structure Records (src : List UInt8) (d : UriSegments) (parts : Parts) : Prop where
  scheme : d.scheme.get src = parts.scheme
  userinfo : d.userinfo.get src = parts.authority.bind Authority.userinfo
  host : d.host.get src = parts.authority.map Authority.host
  port : d.port.get src = parts.authority.bind Authority.port
  path : d.path.get src = some parts.path
  query : d.query.get src = parts.query
  fragment : d.fragment.get src = parts.fragment

/-- A slice of a component that stands in the text is the component. -/
theorem viewAt_get {src : List UInt8} {o : Option (List UInt8)} {off : ℕ}
    (h : ∀ x ∈ o, ∃ front back, src = front ++ (x ++ back) ∧ front.length = off) :
    (viewAt off o).get src = o := by
  cases o with
  | none => rfl
  | some x =>
      obtain ⟨front, back, rfl, rfl⟩ := h x rfl
      simp [StringView.get, viewAt]

/-- The slices of the components of a text are the components. -/
theorem place_records (parts : Parts) : Records (parts.text ++ [0]) parts.place parts := by
  obtain ⟨sc, authority, path, q, f⟩ := parts
  let p : Parts := { scheme := sc, authority := authority, path := path, query := q, fragment := f }
  let front := before ':' sc ++ authorityText p.authority
  have htext : p.text ++ [0] = front ++ (path ++ (behind '?' q ++ (behind '#' f ++ [0]))) := by
    simp [p, front, Parts.text, Parts.tailText]
  have hfront : front.length = (before ':' sc).length + (authorityText p.authority).length :=
    List.length_append
  refine ⟨viewAt_get ?_, viewAt_get ?_, viewAt_get ?_, viewAt_get ?_, ?_, viewAt_get ?_,
    viewAt_get ?_⟩
  · rintro x ⟨⟩
    exact ⟨[], chr ':' :: (authorityText p.authority ++ (p.tailText ++ [0])),
      by simp [p, Parts.text], rfl⟩
  · intro x hx
    obtain ⟨⟨u, host, pt⟩, rfl, rfl⟩ := Option.bind_eq_some_iff.mp hx
    refine ⟨before ':' sc ++ [chr '/', chr '/'], chr '@' :: (host ++ (behind ':' pt ++
      (p.tailText ++ [0]))), ?_, by simp⟩
    simp [p, Parts.text, authorityText, Authority.text]
  · intro x hx
    obtain ⟨⟨u, host, pt⟩, rfl, rfl⟩ := Option.map_eq_some_iff.mp hx
    refine ⟨before ':' sc ++ [chr '/', chr '/'] ++ before '@' u, behind ':' pt ++
      (p.tailText ++ [0]), ?_, by simp; omega⟩
    simp [p, Parts.text, authorityText, Authority.text]
  · intro x hx
    obtain ⟨⟨u, host, pt⟩, rfl, rfl⟩ := Option.bind_eq_some_iff.mp hx
    refine ⟨before ':' sc ++ [chr '/', chr '/'] ++ before '@' u ++ host ++ [chr ':'],
      p.tailText ++ [0], ?_, by simp [Nat.add_assoc]; omega⟩
    simp [p, Parts.text, authorityText, Authority.text]
  · have hpath : (viewAt front.length (some path)).get (p.text ++ [0]) = some path := by
      refine viewAt_get ?_
      rintro _ ⟨⟩
      exact ⟨front, behind '?' q ++ (behind '#' f ++ [0]), htext, rfl⟩
    rw [hfront] at hpath
    exact hpath
  · rintro x ⟨⟩
    refine ⟨front ++ path ++ [chr '?'], behind '#' f ++ [0], by rw [htext]; simp, ?_⟩
    rw [List.length_append, List.length_append, hfront]
    rfl
  · rintro x ⟨⟩
    refine ⟨front ++ path ++ behind '?' q ++ [chr '#'], [0], by rw [htext]; simp, ?_⟩
    rw [List.length_append, List.length_append, List.length_append, hfront]
    rfl

theorem Records.unique {src : List UInt8} {d : UriSegments} {parts parts' : Parts}
    (h : Records src d parts) (h' : Records src d parts') : parts = parts' := by
  obtain ⟨sc, authority, path, q, f⟩ := parts
  obtain ⟨sc', authority', path', q', f'⟩ := parts'
  obtain rfl : sc = sc' := h.scheme.symm.trans h'.scheme
  obtain rfl : path = path' := Option.some.inj (h.path.symm.trans h'.path)
  obtain rfl : q = q' := h.query.symm.trans h'.query
  obtain rfl : f = f' := h.fragment.symm.trans h'.fragment
  have huser := h.userinfo.symm.trans h'.userinfo
  have hhost := h.host.symm.trans h'.host
  have hport := h.port.symm.trans h'.port
  cases authority with
  | none =>
      cases authority' with
      | none => rfl
      | some a' => cases hhost
  | some a =>
      cases authority' with
      | none => cases hhost
      | some a' =>
          obtain ⟨u, host, pt⟩ := a
          obtain ⟨u', host', pt'⟩ := a'
          obtain rfl : u = u' := huser
          obtain rfl : host = host' := Option.some.inj hhost
          obtain rfl : pt = pt' := hport
          rfl

end Hlibc.Uri
