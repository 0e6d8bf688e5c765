import Hlibc.Support.Circular
import Mathlib.Logic.Function.Basic

/-!
# The circular lists of `list.h`

A `struct list_node` is an address, and memory gives its two pointers.  Every
function writes the pointers one by one, in the order of the source.  What a
call means is an operation on a set of circular sequences; the lists in memory
follow it through any run of calls.
-/

set_option autoImplicit false

namespace Hlibc.ListNode

variable {α : Type*}

/-! ## The functions of the source -/

/-- The `struct list_node` at every address. -/
structure Memory (α : Type*) where
  next : α → α
  prev : α → α

variable [DecidableEq α]

namespace Memory

def setNext (m : Memory α) (node ptr : α) : Memory α :=
  { m with next := Function.update m.next node ptr }

def setPrev (m : Memory α) (node ptr : α) : Memory α :=
  { m with prev := Function.update m.prev node ptr }

variable (m : Memory α) (node ptr : α)

@[simp] theorem next_setNext : (m.setNext node ptr).next = Function.update m.next node ptr := rfl

@[simp] theorem prev_setNext : (m.setNext node ptr).prev = m.prev := rfl

@[simp] theorem next_setPrev : (m.setPrev node ptr).next = m.next := rfl

@[simp] theorem prev_setPrev : (m.setPrev node ptr).prev = Function.update m.prev node ptr := rfl

end Memory

def listNodeInit (m : Memory α) (node : α) : Memory α :=
  let m := m.setNext node node
  m.setPrev node node

/-- `__list_add`. -/
def listAddBetween (m : Memory α) (item prev next : α) : Memory α :=
  let m := m.setNext prev item
  let m := m.setPrev next item
  let m := m.setNext item next
  m.setPrev item prev

/-- `__list_rm`. -/
def listRmBetween (m : Memory α) (prev next : α) : Memory α :=
  let m := m.setNext prev next
  m.setPrev next prev

def listAdd (m : Memory α) (item node : α) : Memory α :=
  listAddBetween m item node (m.next node)

def listAddTail (m : Memory α) (item node : α) : Memory α :=
  listAddBetween m item (m.prev node) node

def listRm (m : Memory α) (node : α) : Memory α :=
  listRmBetween m (m.prev node) (m.next node)

def listMove (m : Memory α) (item node : α) : Memory α :=
  let m := listRm m item
  listAdd m item node

def listMoveTail (m : Memory α) (item node : α) : Memory α :=
  let m := listRm m item
  listAddTail m item node

def listReplace (m : Memory α) (old item : α) : Memory α :=
  let m := m.setNext item (m.next old)
  let m := m.setPrev item (m.prev old)
  let m := m.setNext (m.prev item) item
  m.setPrev (m.next item) item

/-- `list_swap`. -/
def listSwap (m : Memory α) (a b : α) : Memory α :=
  let tmp := m.prev a
  if a ≠ b then
    let m := listRm m a
    let m := listReplace m b a
    listAdd m b tmp
  else m

/-! ## Operations on circular sequences -/

open Circular

/-- `item` behind `node`; if `item` was a sequence by itself, it no longer is. -/
def insertAfter (item node : α) (R : Set (Cycle α)) : Set (Cycle α) :=
  splice node [node, item] '' (R \ {↑[item]})

/-- `item` before `node`. -/
def insertBefore (item node : α) (R : Set (Cycle α)) : Set (Cycle α) :=
  splice node [item, node] '' (R \ {↑[item]})

/-- The sequences without `node`. -/
def delete (node : α) (R : Set (Cycle α)) : Set (Cycle α) :=
  splice node [] '' (R \ {↑[node]})

/-- `item` in the place of `old`. -/
def substitute (old item : α) (R : Set (Cycle α)) : Set (Cycle α) :=
  splice old [item] '' (R \ {↑[item]})

/-- A call of one of the functions. -/
inductive Call (α : Type*) where
  | nodeInit (node : α)
  | add (item node : α)
  | addTail (item node : α)
  | rm (node : α)
  | move (item node : α)
  | moveTail (item node : α)
  | replace (old item : α)

namespace Call

/-- What a call does to memory. -/
def exec (m : Memory α) : Call α → Memory α
  | nodeInit node => listNodeInit m node
  | add item node => listAdd m item node
  | addTail item node => listAddTail m item node
  | rm node => listRm m node
  | move item node => listMove m item node
  | moveTail item node => listMoveTail m item node
  | replace old item => listReplace m old item

/-- What a call means for the sequences. -/
def apply (R : Set (Cycle α)) : Call α → Set (Cycle α)
  | nodeInit node => insert ↑[node] R
  | add item node => insertAfter item node R
  | addTail item node => insertBefore item node R
  | rm node => delete node R
  | move item node => insertAfter item node (delete item R)
  | moveTail item node => insertBefore item node (delete item R)
  | replace old item => substitute old item R

/-- The nodes a call names. -/
def names : Call α → List α
  | nodeInit node => [node]
  | add item node => [item, node]
  | addTail item node => [item, node]
  | rm node => [node]
  | move item node => [item, node]
  | moveTail item node => [item, node]
  | replace old item => [old, item]

/-- A node that is initialised, added or used as a replacement is in no list
with another node, and the nodes at which lists change are in a list. -/
def Allowed (R : Set (Cycle α)) : Call α → Prop
  | nodeInit node => Free R node
  | add item node => Free R item ∧ Member R node ∧ item ≠ node
  | addTail item node => Free R item ∧ Member R node ∧ item ≠ node
  | rm node => Member R node
  | move item node => Member R item ∧ Member R node ∧ item ≠ node
  | moveTail item node => Member R item ∧ Member R node ∧ item ≠ node
  | replace old item => Free R item ∧ ∃ c ∈ R, old ∈ c ∧ c ≠ ↑[old]

end Call

/-! ## Every call follows its operation -/

variable {m : Memory α} {R : Set (Cycle α)} {item node old x : α} {c : Cycle α}

/-- The lists in memory are these sequences. -/
def Represents (m : Memory α) (R : Set (Cycle α)) : Prop :=
  Rings m.next m.prev R

theorem listNodeInit_represents (h : Represents m R) (hfree : Free R node) :
    Represents (listNodeInit m node) (insert ↑[node] R) := by
  apply h.insert_singleton hfree
  · simp [listNodeInit]
  · intro y hne
    simp [listNodeInit, hne]

theorem listAdd_represents (h : Represents m R) (hfree : Free R item) (hnode : Member R node)
    (hne : item ≠ node) : Represents (listAdd m item node) (insertAfter item node R) := by
  obtain ⟨c, hc, hmem⟩ := hnode
  obtain ⟨⟨hnextmem, hback⟩, hprevmem, hforth⟩ := h.neighbours hc hmem
  have hprevitem : m.prev node ≠ item := hfree.ne_of_mem hc hprevmem hmem hne
  have hnextitem : m.next node ≠ item := hfree.ne_of_mem hc hnextmem hmem hne
  apply h.splice item
  · simp
  · simp [hne.symm]
  · exact ⟨c, hc, hmem⟩
  · exact Or.inr ⟨hne, by simp, hfree⟩
  · intro y hynode hyitem _
    simp [listAdd, listAddBetween, hynode, hyitem]
  · intro y _ hyitem hynext
    simp [listAdd, listAddBetween, hyitem, hynext]
  · intro _ hself _
    simp [Linked, listAdd, listAddBetween, hself, hne.symm]
  · intro hmany hmany'
    simp [Linked, listAdd, listAddBetween, hne.symm, hprevitem, hnextitem, hmany', hforth,
      hmany.symm]

theorem listAddTail_represents (h : Represents m R) (hfree : Free R item)
    (hnode : Member R node) (hne : item ≠ node) :
    Represents (listAddTail m item node) (insertBefore item node R) := by
  obtain ⟨c, hc, hmem⟩ := hnode
  obtain ⟨⟨hnextmem, hback⟩, hprevmem, hforth⟩ := h.neighbours hc hmem
  have hprevitem : m.prev node ≠ item := hfree.ne_of_mem hc hprevmem hmem hne
  have hnextitem : m.next node ≠ item := hfree.ne_of_mem hc hnextmem hmem hne
  apply h.splice item
  · simp
  · simp [hne]
  · exact ⟨c, hc, hmem⟩
  · exact Or.inr ⟨hne, by simp, hfree⟩
  · intro y _ hyitem hyprev
    simp [listAddTail, listAddBetween, hyitem, hyprev]
  · intro y hynode hyitem _
    simp [listAddTail, listAddBetween, hynode, hyitem]
  · intro _ _ hself
    simp [Linked, listAddTail, listAddBetween, hself, hne.symm]
  · intro hmany hmany'
    simp [Linked, listAddTail, listAddBetween, hne.symm, hprevitem, hnextitem, hmany, hback,
      hmany'.symm]

theorem listRm_represents (h : Represents m R) (hnode : Member R node) :
    Represents (listRm m node) (delete node R) := by
  apply h.splice node
  · simp
  · exact List.nodup_nil
  · exact hnode
  · exact Or.inl ⟨rfl, rfl⟩
  · intro y _ _ hyprev
    simp [listRm, listRmBetween, hyprev]
  · intro y _ _ hynext
    simp [listRm, listRmBetween, hynext]
  · exact fun hne => absurd rfl hne
  · intro _ _
    simp [Linked, listRm, listRmBetween]

theorem listReplace_represents (h : Represents m R) (hfree : Free R item) (hc : c ∈ R)
    (hold : old ∈ c) (hmany : c ≠ ↑[old]) :
    Represents (listReplace m old item) (substitute old item R) := by
  have hne : item ≠ old := by
    rintro rfl
    exact hmany (hfree c hc hold)
  obtain ⟨⟨hnextmem, -⟩, hprevmem, -⟩ := h.neighbours hc hold
  have hprevitem : m.prev old ≠ item := hfree.ne_of_mem hc hprevmem hold hne
  have hnextitem : m.next old ≠ item := hfree.ne_of_mem hc hnextmem hold hne
  apply h.splice item
  · simp
  · exact List.nodup_singleton item
  · exact ⟨c, hc, hold⟩
  · exact Or.inr ⟨hne, by simp, hfree⟩
  · intro y _ hyitem hyprev
    simp [listReplace, hyitem, hyprev]
  · intro y _ hyitem hynext
    simp [listReplace, hprevitem.symm, hyitem, hynext]
  · exact fun _ hself _ => absurd ((h.next_eq_self hc hold).mp hself) hmany
  · intro _ _
    simp [Linked, listReplace, hprevitem.symm, hnextitem.symm]

theorem notMem_delete (hc : c ∈ delete item R) : item ∉ c := by
  obtain ⟨d, -, rfl⟩ := hc
  intro hmem
  rcases mem_splice.mp hmem with ⟨-, hne⟩ | ⟨-, hnil⟩
  · exact hne rfl
  · exact List.not_mem_nil hnil

theorem free_delete (R : Set (Cycle α)) (item : α) : Free (delete item R) item :=
  fun _ hc hmem => absurd hmem (notMem_delete hc)

theorem member_delete (hnode : Member R node) (hne : item ≠ node) :
    Member (delete item R) node := by
  obtain ⟨c, hc, hmem⟩ := hnode
  refine ⟨splice item [] c, ⟨c, ⟨hc, ?_⟩, rfl⟩, mem_splice.mpr (Or.inl ⟨hmem, hne.symm⟩)⟩
  rintro rfl
  exact hne (List.mem_singleton.mp hmem).symm

theorem exec_represents (h : Represents m R) {call : Call α} (hallowed : call.Allowed R) :
    Represents (call.exec m) (call.apply R) := by
  cases call with
  | nodeInit node => exact listNodeInit_represents h hallowed
  | add item node =>
      obtain ⟨hfree, hnode, hne⟩ := hallowed
      exact listAdd_represents h hfree hnode hne
  | addTail item node =>
      obtain ⟨hfree, hnode, hne⟩ := hallowed
      exact listAddTail_represents h hfree hnode hne
  | rm node => exact listRm_represents h hallowed
  | move item node =>
      obtain ⟨hitem, hnode, hne⟩ := hallowed
      exact listAdd_represents (listRm_represents h hitem) (free_delete R item)
        (member_delete hnode hne) hne
  | moveTail item node =>
      obtain ⟨hitem, hnode, hne⟩ := hallowed
      exact listAddTail_represents (listRm_represents h hitem) (free_delete R item)
        (member_delete hnode hne) hne
  | replace old item =>
      obtain ⟨hfree, c, hc, hold, hmany⟩ := hallowed
      exact listReplace_represents h hfree hc hold hmany

/-! ## What a call leaves alone -/

/-- The nodes of `c` keep their pointers. -/
def Unchanged (c : Cycle α) (m m' : Memory α) : Prop :=
  ∀ x ∈ c, m'.next x = m.next x ∧ m'.prev x = m.prev x

/-- A sequence that neither `x` nor the incoming node is on stays in the set. -/
theorem mem_splice_image {w : List α} (hc : c ∈ R) (hx : x ∉ c) (hitem : item ∉ c) :
    c ∈ splice x w '' (R \ {↑[item]}) := by
  refine ⟨c, ⟨hc, ?_⟩, splice_of_notMem hx⟩
  rintro rfl
  exact hitem (List.mem_singleton_self item)

theorem listAdd_unchanged (h : Represents m R) (hc : c ∈ R) (hnode : Member R node)
    (hitem : item ∉ c) (hout : node ∉ c) : Unchanged c m (listAdd m item node) := by
  intro y hy
  obtain ⟨hne, hnext, -⟩ := h.ne_neighbours hc hy hnode hout
  have hyi : y ≠ item := fun heq => hitem (heq ▸ hy)
  simp [listAdd, listAddBetween, hne, hnext, hyi]

theorem listAddTail_unchanged (h : Represents m R) (hc : c ∈ R) (hnode : Member R node)
    (hitem : item ∉ c) (hout : node ∉ c) : Unchanged c m (listAddTail m item node) := by
  intro y hy
  obtain ⟨hne, -, hprev⟩ := h.ne_neighbours hc hy hnode hout
  have hyi : y ≠ item := fun heq => hitem (heq ▸ hy)
  simp [listAddTail, listAddBetween, hne, hprev, hyi]

theorem listRm_unchanged (h : Represents m R) (hc : c ∈ R) (hnode : Member R node)
    (hout : node ∉ c) : Unchanged c m (listRm m node) := by
  intro y hy
  obtain ⟨-, hnext, hprev⟩ := h.ne_neighbours hc hy hnode hout
  simp [listRm, listRmBetween, hnext, hprev]

theorem listReplace_unchanged (h : Represents m R) (hc : c ∈ R) (hold : Member R old)
    (hne : m.prev old ≠ item) (hitem : item ∉ c) (hout : old ∉ c) :
    Unchanged c m (listReplace m old item) := by
  intro y hy
  obtain ⟨-, hnext, hprev⟩ := h.ne_neighbours hc hy hold hout
  have hyi : y ≠ item := fun heq => hitem (heq ▸ hy)
  simp [listReplace, hyi, hprev, hne.symm, hnext]

omit [DecidableEq α] in
theorem Unchanged.trans {m₁ m₂ : Memory α} (h : Unchanged c m m₁) (h' : Unchanged c m₁ m₂) :
    Unchanged c m m₂ :=
  fun y hy => ⟨(h' y hy).1.trans (h y hy).1, (h' y hy).2.trans (h y hy).2⟩

theorem exec_unchanged (h : Represents m R) {call : Call α} (hallowed : call.Allowed R)
    (hc : c ∈ R) (hnames : ∀ x ∈ call.names, x ∉ c) :
    c ∈ call.apply R ∧ Unchanged c m (call.exec m) := by
  cases call with
  | nodeInit node =>
      refine ⟨Set.mem_insert_of_mem _ hc, fun y hy => ?_⟩
      have hyn : y ≠ node := fun heq => hnames node (by simp [Call.names]) (heq ▸ hy)
      simp [Call.exec, listNodeInit, hyn]
  | add item node =>
      have hitem := hnames item (by simp [Call.names])
      have hnode := hnames node (by simp [Call.names])
      exact ⟨mem_splice_image hc hnode hitem,
        listAdd_unchanged h hc hallowed.2.1 hitem hnode⟩
  | addTail item node =>
      have hitem := hnames item (by simp [Call.names])
      have hnode := hnames node (by simp [Call.names])
      exact ⟨mem_splice_image hc hnode hitem,
        listAddTail_unchanged h hc hallowed.2.1 hitem hnode⟩
  | rm node =>
      have hnode := hnames node (by simp [Call.names])
      exact ⟨mem_splice_image hc hnode hnode, listRm_unchanged h hc hallowed hnode⟩
  | move item node =>
      have hitem := hnames item (by simp [Call.names])
      have hnode := hnames node (by simp [Call.names])
      obtain ⟨hmember, hmember', hne⟩ := hallowed
      have hkept : c ∈ delete item R := mem_splice_image hc hitem hitem
      have hrm := listRm_unchanged h hc hmember hitem
      have hadd := listAdd_unchanged (listRm_represents h hmember) hkept
        (member_delete hmember' hne) hitem hnode
      exact ⟨mem_splice_image hkept hnode hitem, hrm.trans hadd⟩
  | moveTail item node =>
      have hitem := hnames item (by simp [Call.names])
      have hnode := hnames node (by simp [Call.names])
      obtain ⟨hmember, hmember', hne⟩ := hallowed
      have hkept : c ∈ delete item R := mem_splice_image hc hitem hitem
      have hrm := listRm_unchanged h hc hmember hitem
      have hadd := listAddTail_unchanged (listRm_represents h hmember) hkept
        (member_delete hmember' hne) hitem hnode
      exact ⟨mem_splice_image hkept hnode hitem, hrm.trans hadd⟩
  | replace old item =>
      have hold := hnames old (by simp [Call.names])
      have hitem := hnames item (by simp [Call.names])
      obtain ⟨hfree, d, hd, hmem, hmany⟩ := hallowed
      have hne : item ≠ old := by
        rintro rfl
        exact hmany (hfree d hd hmem)
      have hprev : m.prev old ≠ item :=
        hfree.ne_of_mem hd (h.neighbours hd hmem).2.1 hmem hne
      exact ⟨mem_splice_image hc hold hitem,
        listReplace_unchanged h hc ⟨d, hd, hmem⟩ hprev hitem hold⟩

/-! ## Runs of calls -/

/-- Every call of the run is allowed in the state it meets. -/
def Admissible : Set (Cycle α) → List (Call α) → Prop
  | _, [] => True
  | R, call :: calls => call.Allowed R ∧ Admissible (call.apply R) calls

theorem admissible_append {calls calls' : List (Call α)} :
    Admissible R (calls ++ calls') ↔
      Admissible R calls ∧ Admissible (calls.foldl Call.apply R) calls' := by
  induction calls generalizing R with
  | nil => simp [Admissible]
  | cons call calls ih => simp [Admissible, ih, and_assoc]

theorem foldl_represents {calls : List (Call α)} (h : Represents m R)
    (hadm : Admissible R calls) :
    Represents (calls.foldl Call.exec m) (calls.foldl Call.apply R) := by
  induction calls generalizing m R with
  | nil => exact h
  | cons call calls ih => exact ih (exec_represents h hadm.1) hadm.2

/-- Through any run of allowed calls the linked nodes form disjoint circular
lists, whose pointers lead to and fro, and which are the sequences that the
operations make; a call leaves the lists that it does not name alone. -/
theorem calls_represent (m : Memory α) (R : Set (Cycle α)) (calls : List (Call α))
    (h : Represents m R) (hadm : Admissible R calls) :
    Represents (calls.foldl Call.exec m) (calls.foldl Call.apply R) ∧
      (∀ x, Member (calls.foldl Call.apply R) x →
        (calls.foldl Call.exec m).prev ((calls.foldl Call.exec m).next x) = x ∧
          (calls.foldl Call.exec m).next ((calls.foldl Call.exec m).prev x) = x) ∧
      ∀ before call after, calls = before ++ call :: after →
        ∀ c ∈ before.foldl Call.apply R, (∀ x ∈ call.names, x ∉ c) →
          c ∈ (before ++ [call]).foldl Call.apply R ∧
            Unchanged c (before.foldl Call.exec m) ((before ++ [call]).foldl Call.exec m) := by
  have hend := foldl_represents h hadm
  refine ⟨hend, ?_, ?_⟩
  · rintro x ⟨c, hc, hx⟩
    obtain ⟨⟨-, hback⟩, -, hforth⟩ := hend.neighbours hc hx
    exact ⟨hback, hforth⟩
  · rintro before call after rfl c hc hnames
    obtain ⟨hbefore, hcall, -⟩ := admissible_append.mp hadm
    rw [List.foldl_append, List.foldl_append]
    exact exec_unchanged (foldl_represents h hbefore) hcall hc hnames

/-- A list of two nodes, from memory in which nothing is linked, with the one
replaced by a third. -/
theorem calls_represent_replace :
    Represents
      (([.nodeInit 0, .add 1 0, .replace 0 2] : List (Call ℕ)).foldl Call.exec ⟨id, id⟩)
      (([.nodeInit 0, .add 1 0, .replace 0 2] : List (Call ℕ)).foldl Call.apply ∅) := by
  refine (calls_represent ⟨id, id⟩ ∅ _ (Rings.empty _ _) ?_).1
  have hsingle : insert ↑[0] (∅ : Set (Cycle ℕ)) \ {↑[1]} = {↑[0]} := by
    ext c
    constructor
    · rintro ⟨rfl | hc, -⟩
      · rfl
      · exact absurd hc (Set.notMem_empty c)
    · rintro rfl
      exact ⟨Or.inl rfl, by decide⟩
  have hpair : insertAfter 1 0 (insert ↑[0] (∅ : Set (Cycle ℕ))) = {↑[0, 1]} := by
    rw [insertAfter, hsingle, Set.image_singleton]
    rfl
  refine ⟨?_, ⟨?_, ?_, by decide⟩, ⟨?_, ?_⟩, trivial⟩
  · rintro c hc
    exact absurd hc (Set.notMem_empty c)
  · rintro c (rfl | hc) hmem
    · exact absurd hmem (by decide)
    · exact absurd hc (Set.notMem_empty c)
  · exact ⟨↑[0], Or.inl rfl, by decide⟩
  · show Free (insertAfter 1 0 (insert ↑[0] (∅ : Set (Cycle ℕ)))) 2
    rw [hpair]
    rintro c rfl hmem
    exact absurd hmem (by decide)
  · show ∃ c ∈ insertAfter 1 0 (insert ↑[0] (∅ : Set (Cycle ℕ))), 0 ∈ c ∧ c ≠ ↑[0]
    rw [hpair]
    exact ⟨↑[0, 1], rfl, by decide, by decide⟩

end Hlibc.ListNode
