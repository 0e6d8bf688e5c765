import Hlibc.Support.Circular
import Hlibc.Support.Exec
import Hlibc.Support.SlotList

/-!
# The head lists of `list.h`

A `struct hlist_head` and a `struct hlist_node` are addresses, and memory gives
their fields.  `pprev` points to a slot: the `first` of a head or the `next` of
a node.  Every function writes the fields one by one, in the order of the
source.  What a call means is an operation on the sequences of the heads.
-/

set_option autoImplicit false

namespace Hlibc.Hlist

open SlotList

variable {η ν : Type*}

/-! ## The functions of the source -/

/-- The fields of all heads and nodes. -/
structure Memory (η ν : Type*) where
  first : η → Option ν
  next : ν → Option ν
  pprev : ν → Option (Slot η ν)

namespace Memory

/-- What a slot holds. -/
def load (m : Memory η ν) : Slot η ν → Option ν
  | .first head => m.first head
  | .next node => m.next node

def setFirst [DecidableEq η] (m : Memory η ν) (head : η) (ptr : Option ν) : Memory η ν :=
  { m with first := Function.update m.first head ptr }

@[simp] theorem load_setFirst [DecidableEq η] [DecidableEq ν] (m : Memory η ν) (head : η)
    (ptr : Option ν) (t : Slot η ν) :
    (m.setFirst head ptr).load t = if t = .first head then ptr else m.load t := by
  cases t <;> simp [load, setFirst, Function.update_apply]

@[simp] theorem pprev_setFirst [DecidableEq η] (m : Memory η ν) (head : η) (ptr : Option ν) :
    (m.setFirst head ptr).pprev = m.pprev := rfl

variable [DecidableEq ν]

def setNext (m : Memory η ν) (node : ν) (ptr : Option ν) : Memory η ν :=
  { m with next := Function.update m.next node ptr }

def setPprev (m : Memory η ν) (node : ν) (slot : Option (Slot η ν)) : Memory η ν :=
  { m with pprev := Function.update m.pprev node slot }

/-- `if (ptr) ptr->pprev = slot`. -/
def relink (m : Memory η ν) (ptr : Option ν) (slot : Option (Slot η ν)) : Memory η ν :=
  match ptr with
  | some a => m.setPprev a slot
  | none => m

variable (m : Memory η ν) (node a : ν) (ptr : Option ν) (slot : Option (Slot η ν))
  (s t : Slot η ν)

@[simp] theorem pprev_setNext : (m.setNext node ptr).pprev = m.pprev := rfl

@[simp] theorem load_setPprev : (m.setPprev node slot).load t = m.load t := by
  cases t <;> rfl

@[simp] theorem pprev_setPprev :
    (m.setPprev node slot).pprev a = if a = node then slot else m.pprev a := by
  simp [setPprev, Function.update_apply]

@[simp] theorem load_relink : (m.relink ptr slot).load t = m.load t := by
  cases ptr <;> simp [relink]

@[simp] theorem pprev_relink :
    (m.relink ptr slot).pprev a = if ptr = some a then slot else m.pprev a := by
  cases ptr <;> simp [relink, eq_comm]

variable [DecidableEq η]

@[simp] theorem load_setNext :
    (m.setNext node ptr).load t = if t = .next node then ptr else m.load t := by
  cases t <;> simp [load, setNext, Function.update_apply]

/-- `*slot = ptr`. -/
def store (m : Memory η ν) (slot : Slot η ν) (ptr : Option ν) : Memory η ν :=
  match slot with
  | .first head => m.setFirst head ptr
  | .next node => m.setNext node ptr

@[simp] theorem load_store : (m.store s ptr).load t = if t = s then ptr else m.load t := by
  cases s <;> simp [store]

@[simp] theorem pprev_store : (m.store s ptr).pprev = m.pprev := by
  cases s <;> rfl

end Memory

@[simp] theorem Memory.first_eq_load (m : Memory η ν) (head : η) :
    m.first head = m.load (.first head) := rfl

@[simp] theorem Memory.next_eq_load (m : Memory η ν) (node : ν) :
    m.next node = m.load (.next node) := rfl

variable [DecidableEq η] [DecidableEq ν]

def hlistHeadInit (m : Memory η ν) (head : η) : Memory η ν :=
  m.setFirst head none

def hlistAddHead (m : Memory η ν) (item : ν) (head : η) : Memory η ν :=
  let m := m.relink (m.first head) (some (.next item))
  let m := m.setNext item (m.first head)
  let m := m.setPprev item (some (.first head))
  m.setFirst head (some item)

/-- `hlist_add_prev`, which follows the `pprev` of `node`. -/
def hlistAddPrev (m : Memory η ν) (item node : ν) : Exec (Memory η ν) :=
  let m := m.setPprev item (m.pprev node)
  let m := m.setNext item (m.next node)
  let m := m.setPprev node (some (.next item))
  match m.pprev item with
  | none => .error .null
  | some slot => .ok (m.store slot (some item))

def hlistAddNext (m : Memory η ν) (item node : ν) : Memory η ν :=
  let m := m.setNext item (m.next node)
  let m := m.setPprev item (some (.next node))
  let m := m.relink (m.next node) (some (.next item))
  m.setNext node (some item)

/-- `hlist_del`, which follows `pprev`. -/
def hlistDel (m : Memory η ν) (node : ν) : Exec (Memory η ν) :=
  match m.pprev node with
  | none => .error .null
  | some slot =>
      let m := m.store slot (m.next node)
      .ok (m.relink (m.next node) (m.pprev node))

def hlistRehead (m : Memory η ν) (old head : η) : Memory η ν :=
  let m := m.setFirst head (m.first old)
  let m := m.relink (m.first head) (some (.first head))
  m.setFirst old none

/-! ## Operations on sequences -/

open Circular (place)

/-- `item` at the front of the list of `head`. -/
def pushFront (item : ν) (head : η) (L : η → Option (List ν)) : η → Option (List ν) :=
  Function.update L head ((L head).map (item :: ·))

/-- `item` before `node`, in the list that `node` is in. -/
def insertBefore (item node : ν) (L : η → Option (List ν)) : η → Option (List ν) :=
  fun head => (L head).map (·.flatMap (place node [item, node]))

/-- `item` behind `node`, in the list that `node` is in. -/
def insertAfter (item node : ν) (L : η → Option (List ν)) : η → Option (List ν) :=
  fun head => (L head).map (·.flatMap (place node [node, item]))

/-- All lists without `node`. -/
def delete (node : ν) (L : η → Option (List ν)) : η → Option (List ν) :=
  fun head => (L head).map (·.flatMap (place node []))

/-- The list of `old` becomes the one of `head`. -/
def moveAll (old head : η) (L : η → Option (List ν)) : η → Option (List ν) :=
  Function.update (Function.update L head (L old)) old (some [])

/-- A call of one of the functions. -/
inductive Call (η ν : Type*) where
  | headInit (head : η)
  | addHead (item : ν) (head : η)
  | addNext (item node : ν)
  | del (node : ν)
  | rehead (old head : η)

namespace Call

/-- What a call does to memory. -/
def exec (m : Memory η ν) : Call η ν → Exec (Memory η ν)
  | headInit head => .ok (hlistHeadInit m head)
  | addHead item head => .ok (hlistAddHead m item head)
  | addNext item node => .ok (hlistAddNext m item node)
  | del node => hlistDel m node
  | rehead old head => .ok (hlistRehead m old head)

/-- What a call means for the lists.  A head has none before it is initialised. -/
def apply (L : η → Option (List ν)) : Call η ν → η → Option (List ν)
  | headInit head => Function.update L head (some [])
  | addHead item head => pushFront item head L
  | addNext item node => insertAfter item node L
  | del node => delete node L
  | rehead old head => moveAll old head L

/-- Added items are in no list, positions are in a list, and the new head of
`hlist_rehead` is another one without nodes. -/
def Allowed (L : η → Option (List ν)) : Call η ν → Prop
  | headInit _ => True
  | addHead item head => ¬Member L item ∧ ∃ l, L head = some l
  | addNext item node => ¬Member L item ∧ Member L node
  | del node => Member L node
  | rehead old head => old ≠ head ∧ (∃ l, L old = some l) ∧ ∀ l, L head = some l → l = []

end Call

/-! ## Every call follows its operation -/

variable {m : Memory η ν} {L : η → Option (List ν)} {head old : η} {item node a : ν}
  {l : List ν}

/-- The lists in memory are these sequences. -/
def Represents (m : Memory η ν) (L : η → Option (List ν)) : Prop :=
  Lists m.load m.pprev L

theorem hlistHeadInit_represents (h : Represents m L) :
    Represents (hlistHeadInit m head) (Function.update L head (some [])) := by
  apply Lists.init h
  · simp [hlistHeadInit]
  · intro t ht
    simp [hlistHeadInit, ht]

theorem hlistAddHead_represents (h : Represents m L) (hitem : ¬Member L item)
    (hL : L head = some l) : Represents (hlistAddHead m item head) (pushFront item head L) := by
  rw [pushFront, hL]
  have hfront : L head = some ([] ++ l) := hL
  apply h.insert hfront hitem
  · simp [endSlot, hlistAddHead]
  · simp [endSlot, hlistAddHead]
  · intro t (hs : t ≠ .first head) hnext
    simp [hlistAddHead, hs, hnext]
  · simp [endSlot, hlistAddHead]
  · intro a ha (hfirst : m.load (.first head) = some a)
    simp [hlistAddHead, ha, hfirst]
  · intro a ha (hfirst : m.load (.first head) ≠ some a)
    simp [hlistAddHead, ha, hfirst]

/-- At the list that `node` is in, the operation is one on that list. -/
theorem map_place_eq (h : Represents m L) {l₁ l₂ w : List ν}
    (hL : L head = some (l₁ ++ node :: l₂)) :
    (fun r => (L r).map (·.flatMap (place node w))) =
      Function.update L head (some (l₁ ++ (w ++ l₂))) := by
  obtain ⟨-, hnd, hdisj⟩ := List.nodup_append.mp (h.nodup head _ hL)
  have hl₁ : node ∉ l₁ := fun hmem => hdisj node hmem node List.mem_cons_self rfl
  have hl₂ : node ∉ l₂ := (List.nodup_cons.mp hnd).1
  funext r
  by_cases hr : r = head
  · subst hr
    rw [Function.update_self, hL, Option.map_some, Circular.flatMap_place_append hl₁ hl₂]
  · rw [Function.update_of_ne hr]
    cases hLr : L r with
    | none => rfl
    | some l =>
        have hl : node ∉ l := fun hmem => hr (h.disjoint r head l _ node hLr hL hmem (by simp))
        rw [Option.map_some, Circular.flatMap_place_of_notMem hl]

theorem hlistAddNext_represents (h : Represents m L) (hitem : ¬Member L item)
    (hnode : Member L node) : Represents (hlistAddNext m item node) (insertAfter item node L) := by
  obtain ⟨head, l, hL, hmem⟩ := hnode
  obtain ⟨l₁, l₂, rfl⟩ := List.append_of_mem hmem
  have hne : node ≠ item := by
    rintro rfl
    exact hitem ⟨head, _, hL, hmem⟩
  have hcut : endSlot (.first head) (l₁ ++ [node]) = .next node := endSlot_append
  have hsplit : L head = some ((l₁ ++ [node]) ++ l₂) := by
    rw [hL, List.append_assoc, List.singleton_append]
  have hinsert : insertAfter item node L =
      Function.update L head (some ((l₁ ++ [node]) ++ item :: l₂)) := by
    rw [List.append_assoc]
    exact map_place_eq h hL
  have hout : m.load (.next node) ≠ some item := by
    rw [← hcut, (path_append.mp (h.path head _ hsplit)).2.load_eq]
    intro hhead
    exact hitem ⟨head, _, hsplit, List.mem_append_right _ (List.mem_of_mem_head? hhead)⟩
  rw [hinsert]
  apply h.insert hsplit hitem
  · simp [hcut, hlistAddNext]
  · simp [hcut, hlistAddNext, hne.symm]
  · rw [hcut]
    intro t hs hnext
    simp [hlistAddNext, hs, hnext]
  · simp [hcut, hlistAddNext, hout]
  · rw [hcut]
    intro a ha hfirst
    simp [hlistAddNext, hfirst, hne]
  · rw [hcut]
    intro a ha hfirst
    simp [hlistAddNext, ha, hfirst, hne]

theorem hlistDel_represents (h : Represents m L) (hnode : Member L node) :
    ∃ m', hlistDel m node = .ok m' ∧ Represents m' (delete node L) := by
  obtain ⟨head, l, hL, hmem⟩ := hnode
  obtain ⟨l₁, l₂, rfl⟩ := List.append_of_mem hmem
  obtain ⟨-, hpprev, -⟩ := path_cons.mp (path_append.mp (h.path head _ hL)).2
  have hne : Slot.next node ≠ endSlot (.first head) l₁ := by
    obtain ⟨-, -, hdisj⟩ := List.nodup_append.mp (h.nodup head _ hL)
    exact next_ne_endSlot head fun hmem => hdisj node hmem node List.mem_cons_self rfl
  have hdelete : delete node L = Function.update L head (some (l₁ ++ l₂)) := map_place_eq h hL
  rw [hlistDel, hpprev, hdelete]
  refine ⟨_, rfl, h.delete hL ?_ ?_ ?_ ?_⟩
  · simp
  · intro t ht
    simp [ht]
  · intro a ha
    simp [hne, ha, hpprev]
  · intro a ha
    simp [hne, ha]

theorem hlistRehead_represents (h : Represents m L) (hne : old ≠ head) (hL : L old = some l) :
    Represents (hlistRehead m old head) (moveAll old head L) := by
  rw [moveAll, hL]
  apply h.move hL hne
  · simp [hlistRehead, hne.symm]
  · simp [hlistRehead]
  · intro t hold hnew
    simp [hlistRehead, hold, hnew]
  · intro a ha
    simp [hlistRehead, ha]
  · intro a ha
    simp [hlistRehead, ha]

theorem exec_represents (h : Represents m L) {call : Call η ν} (hallowed : call.Allowed L) :
    ∃ m', call.exec m = .ok m' ∧ Represents m' (call.apply L) := by
  cases call with
  | headInit head => exact ⟨_, rfl, hlistHeadInit_represents h⟩
  | addHead item head =>
      obtain ⟨hitem, l, hL⟩ := hallowed
      exact ⟨_, rfl, hlistAddHead_represents h hitem hL⟩
  | addNext item node => exact ⟨_, rfl, hlistAddNext_represents h hallowed.1 hallowed.2⟩
  | del node => exact hlistDel_represents h hallowed
  | rehead old head =>
      obtain ⟨hne, ⟨l, hL⟩, -⟩ := hallowed
      exact ⟨_, rfl, hlistRehead_represents h hne hL⟩

/-! ## Runs of calls -/

/-- Every call of the run is allowed in the state it meets. -/
def Admissible : (η → Option (List ν)) → List (Call η ν) → Prop
  | _, [] => True
  | L, call :: calls => call.Allowed L ∧ Admissible (call.apply L) calls

/-- Through any run of allowed calls no null pointer is followed, every node of
a list leads back to the slot that holds it, and the lists, which end at null
pointers, are the sequences that the operations make. -/
theorem calls_represent_lists (m : Memory η ν) (L : η → Option (List ν))
    (calls : List (Call η ν)) (h : Represents m L) (hadm : Admissible L calls) :
    ∃ m', calls.foldlM Call.exec m = .ok m' ∧ Represents m' (calls.foldl Call.apply L) ∧
      ∀ x, Member (calls.foldl Call.apply L) x →
        ∃ slot, m'.pprev x = some slot ∧ m'.load slot = some x := by
  induction calls generalizing m L with
  | nil => exact ⟨m, rfl, h, fun x hx => h.load_back hx⟩
  | cons call calls ih =>
      obtain ⟨hallowed, hrest⟩ := hadm
      obtain ⟨m₁, hexec, h₁⟩ := exec_represents h hallowed
      obtain ⟨m', hrun, hend⟩ := ih m₁ (call.apply L) h₁ hrest
      exact ⟨m', by rw [List.foldlM_cons, hexec, Exec.ok_bind, hrun], hend⟩

/-- A list of two nodes, from memory in which nothing is linked, that moves to
another head and then loses its first node. -/
theorem calls_represent_lists_rehead :
    ∃ m', ([.headInit true, .addHead 0 true, .addNext 1 0, .rehead true false, .del 0] :
        List (Call Bool ℕ)).foldlM Call.exec ⟨fun _ => none, fun _ => none, fun _ => none⟩ =
          .ok m' ∧
      Represents m' ([.headInit true, .addHead 0 true, .addNext 1 0, .rehead true false,
        .del 0].foldl Call.apply fun _ => none) := by
  obtain ⟨m', hrun, hrep, -⟩ := calls_represent_lists
    (⟨fun _ => none, fun _ => none, fun _ => none⟩ : Memory Bool ℕ) (fun _ => none)
    [.headInit true, .addHead 0 true, .addNext 1 0, .rehead true false, .del 0]
    (Lists.empty _ _) (by
      simp [Admissible, Call.Allowed, Call.apply, Member, pushFront, insertAfter, moveAll, place,
        Function.update_apply])
  exact ⟨m', hrun, hrep⟩

/-! ## Before a node -/

/-- `hlist_add_prev` returns, and `item` goes on to where `node` goes on to. -/
theorem hlistAddPrev_next (h : Represents m L) (hitem : ¬Member L item) (hnode : Member L node) :
    ∃ m', hlistAddPrev m item node = .ok m' ∧ m'.load (.next item) = m.load (.next node) := by
  obtain ⟨head, l, hL, hmem⟩ := hnode
  have hne : item ≠ node := by
    rintro rfl
    exact hitem ⟨head, l, hL, hmem⟩
  obtain ⟨l₁, l₂, rfl⟩ := List.append_of_mem hmem
  obtain ⟨-, hpprev, -⟩ := path_cons.mp (path_append.mp (h.path head _ hL)).2
  have hslot : Slot.next item ≠ endSlot (.first head) l₁ :=
    next_ne_endSlot head fun hmem => hitem ⟨head, _, hL, List.mem_append_left _ hmem⟩
  simp only [hlistAddPrev, Memory.pprev_setPprev, Memory.pprev_setNext, if_neg hne, if_true,
    hpprev]
  exact ⟨_, rfl, by simp [hslot]⟩

/-- In no state does `hlist_add_prev` put `item` before `node`: `item` goes on behind `node`,
which no pointer leads to any more. -/
theorem hlistAddPrev_not_represents (h : Represents m L) (hitem : ¬Member L item)
    (hnode : Member L node) :
    ∃ m', hlistAddPrev m item node = .ok m' ∧ ¬Represents m' (insertBefore item node L) := by
  obtain ⟨m', hrun, hnext⟩ := hlistAddPrev_next h hitem hnode
  refine ⟨m', hrun, fun hrep => ?_⟩
  obtain ⟨head, l, hL, hmem⟩ := hnode
  obtain ⟨l₁, l₂, rfl⟩ := List.append_of_mem hmem
  have hbefore : insertBefore item node L head = some (l₁ ++ item :: node :: l₂) := by
    have hone : insertBefore item node L =
        Function.update L head (some (l₁ ++ ([item, node] ++ l₂))) := map_place_eq h hL
    rw [hone, Function.update_self]
    rfl
  obtain ⟨-, -, hrest⟩ := path_cons.mp (path_append.mp (hrep.path head _ hbefore)).2
  have hself : m.load (.next node) = some node := by
    rw [← hnext]
    exact (path_cons.mp hrest).1
  obtain ⟨-, -, hbehind⟩ := path_cons.mp (path_append.mp (h.path head _ hL)).2
  rw [hbehind.load_eq] at hself
  obtain ⟨-, hnodup, -⟩ := List.nodup_append.mp (h.nodup head _ hL)
  exact (List.nodup_cons.mp hnodup).1 (List.mem_of_mem_head? hself)

/-- The list of the node 0 alone. -/
def single : Memory Bool ℕ where
  first _ := some 0
  next _ := none
  pprev _ := some (.first true)

theorem single_represents :
    Represents single (Function.update (fun _ => none) true (some [0])) := by
  apply (Lists.empty (fun _ => none) fun _ => none).update
  · exact ⟨⟨rfl, rfl, trivial⟩, rfl⟩
  · exact List.nodup_singleton 0
  · exact fun _ _ _ _ hL => absurd hL (by simp)
  · exact fun _ _ _ _ hL => absurd hL (by simp)
  · exact fun _ _ _ _ hL => absurd hL (by simp)

theorem single_member {x : ℕ} :
    Member (Function.update (fun _ => none) true (some [0])) x ↔ x = 0 := by
  constructor
  · rintro ⟨head, l, hL, hmem⟩
    by_cases hhead : head = true
    · subst hhead
      rw [Function.update_self] at hL
      obtain rfl := Option.some.inj hL
      exact List.mem_singleton.mp hmem
    · rw [Function.update_of_ne hhead] at hL
      cases hL
  · rintro rfl
    exact ⟨true, [0], rfl, List.mem_singleton_self 0⟩

/-- The node 1 before the only node of a list. -/
theorem hlistAddPrev_not_represents_single :
    ∃ m', hlistAddPrev single 1 0 = .ok m' ∧
      ¬Represents m' (insertBefore 1 0 (Function.update (fun _ => none) true (some [0]))) :=
  hlistAddPrev_not_represents single_represents (by simp [single_member]) (by simp [single_member])

/-- The node 0 is lost to the list. -/
theorem hlistAddPrev_loses :
    ¬∀ (m : Memory Bool ℕ) (L : Bool → Option (List ℕ)) (item node : ℕ), Represents m L →
      ¬Member L item → Member L node →
        ∃ m', hlistAddPrev m item node = .ok m' ∧ Represents m' (insertBefore item node L) := by
  intro hall
  obtain ⟨m', hrun, hrep⟩ := hall single _ 1 0 single_represents (by simp [single_member])
    (by simp [single_member])
  have hnext : m'.load (.next 1) = none := by
    cases hrun
    rfl
  obtain ⟨-, -, hrest⟩ := path_cons.mp (hrep.path true [1, 0] rfl)
  rw [hrest.load_eq] at hnext
  cases hnext

end Hlibc.Hlist
