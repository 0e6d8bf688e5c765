import Hlibc.ListNode
import Hlibc.Support.Memory
import Hlibc.Support.Words
import Mathlib.Data.Finset.Card

/-!
# A test and the memory behind it

`struct htest` of `htest.h`, and the handles of its resources.  Handles are allocated and
freed, and a read or write of a handle that is not allocated is a fault.  Pointers to
functions are known by their addresses; the calls through them are noted.
-/

set_option autoImplicit false

namespace Hlibc.Htest

/-! ## The data of the source -/

/-- `enum htest_status`. -/
inductive Status where
  | passed
  | skipped
  | failed
  deriving DecidableEq

/-- A string, without its terminator. -/
abbrev Text := List UInt8

/-- `HTEST_STATUS_MSG_SIZE`. -/
def statusMsgSize : ℕ := 256

/-- The string in the array `status_msg`, which has room for its terminator. -/
structure StatusMsg where
  chars : Text
  lt : chars.length < statusMsgSize

/-- `struct htest` but for its list of resources.  A log is a file or NULL, and `returnJmp`
tells whether `setjmp` was called on `return_jmp`. -/
structure Test where
  data : ℕ
  name : Text
  log : Bool
  statusMsg : StatusMsg
  status : Status
  returnJmp : Bool

/-- A test whose bytes are zero; the null pointers of its list are not used. -/
def Test.zero : Test where
  data := 0
  name := []
  log := false
  statusMsg := ⟨[], by decide⟩
  status := .passed
  returnJmp := false

/-- A `struct list_node`: `resources` of the test, or `list` of the handle at an address. -/
inductive Node where
  | resources
  | handle (addr : ℕ)
  deriving DecidableEq

/-- `data` and `destroy` of a `struct htest_resource_handle`. -/
structure Handle where
  data : ℕ
  destroy : ℕ

/-- `struct htest_resource`. -/
structure Resource where
  destroy : ℕ
  create : ℕ

/-- `enum htest_log_level`. -/
inductive LogLevel where
  | info
  | warning
  | error
  deriving DecidableEq

/-- `struct htest_assertion` but for its test. -/
structure Assertion where
  result : Bool
  line : ℤ
  message : Text
  file : Text
  func : Text

/-- A call of a function that a pointer leads to. -/
inductive Event where
  /-- `create` of a resource, its argument and the data it returned. -/
  | create (fn arg data : ℕ)
  /-- `destroy` of a resource on its data. -/
  | release (fn data : ℕ)
  /-- `init` of the suite for the unit with this number, and what it returned. -/
  | init (num : ℕ) (code : ℤ)
  /-- `run` of the unit. -/
  | run (num : ℕ)
  /-- `destroy` of the suite for the unit. -/
  | destroy (num : ℕ)
  deriving DecidableEq

/-- The links of the list nodes, the handles with the addresses at which one is allocated, the
number of allocations, the test, the calls made and the lines logged. -/
structure State where
  links : ListNode.Memory Node
  handles : ℕ → Handle
  live : Finset ℕ
  mallocs : ℕ
  test : Test
  calls : List Event
  output : List Text

/-- The address that `malloc` returns in its `n`th call, if it finds memory; it is not in use. -/
structure Malloc where
  address : ℕ → Finset ℕ → ℕ
  fresh : ∀ n live, address n live ∉ live

/-! ## Memory -/

/-- The node is part of the test or of a handle that is allocated. -/
def Node.Valid (live : Finset ℕ) : Node → Prop
  | .resources => True
  | .handle addr => addr ∈ live

instance (live : Finset ℕ) : DecidablePred (Node.Valid live)
  | .resources => isTrue trivial
  | .handle addr => inferInstanceAs (Decidable (addr ∈ live))

namespace State

variable (s : State)

def readNext (node : Node) : Exec Node :=
  if node.Valid s.live then .ok (s.links.next node) else .error .read

def readPrev (node : Node) : Exec Node :=
  if node.Valid s.live then .ok (s.links.prev node) else .error .read

def writeNext (node ptr : Node) : Exec State :=
  if node.Valid s.live then .ok { s with links := s.links.setNext node ptr } else .error .write

def writePrev (node ptr : Node) : Exec State :=
  if node.Valid s.live then .ok { s with links := s.links.setPrev node ptr } else .error .write

def readHandle (addr : ℕ) : Exec Handle :=
  if addr ∈ s.live then .ok (s.handles addr) else .error .read

def writeHandle (addr : ℕ) (handle : Handle) : Exec State :=
  if addr ∈ s.live then .ok { s with handles := Function.update s.handles addr handle }
  else .error .write

/-- `free`, of an address that is in use. -/
def free (addr : ℕ) : Exec State :=
  if addr ∈ s.live then .ok { s with live := s.live.erase addr } else .error .write

/-- Note a call. -/
def note (event : Event) : State := { s with calls := s.calls ++ [event] }

/-- `__htest_log`, with the line that the format makes. -/
def log (file : Bool) (line : Text) : State :=
  if file then { s with output := s.output ++ [line] } else s

/-- `list_node_init`. -/
def listNodeInit (node : Node) : Exec State := do
  let s ← s.writeNext node node
  s.writePrev node node

/-- `list_add`. -/
def listAdd (item node : Node) : Exec State := do
  let next ← s.readNext node
  let s ← s.writeNext node item
  let s ← s.writePrev next item
  let s ← s.writeNext item next
  s.writePrev item node

/-- `list_rm`. -/
def listRm (node : Node) : Exec State := do
  let prev ← s.readPrev node
  let next ← s.readNext node
  let s ← s.writeNext prev next
  s.writePrev next prev

end State

/-! ## The functions of a test -/

/-- `htest_init`; the jump buffer is zeroed with the rest. -/
def htestInit (name : Text) (log : Bool) (s : State) : Exec (ℤ × State) := do
  let test := { Test.zero with data := 0, status := .passed, name := name, log := log }
  let s ← { s with test := test }.listNodeInit .resources
  .ok (0, s)

/-- `htest_log` for a test; `__htest_log` does not look at the level. -/
def htestLog (_ : LogLevel) (line : Text) (s : State) : State := s.log s.test.log line

/-- A line behind the name of the test. -/
def namedLine (name line : Text) : Text := ascii "    # " ++ name ++ ascii ": " ++ line

def htestError (line : Text) (s : State) : State := htestLog .error (namedLine s.test.name line) s

def htestWarn (line : Text) (s : State) : State := htestLog .warning (namedLine s.test.name line) s

def htestInfo (line : Text) (s : State) : State := htestLog .info (namedLine s.test.name line) s

/-- `htest_set_status`.  The length that the warning gives was cut before. -/
def htestSetStatus (status : Status) (msg : Option Text) (s : State) : State :=
  let s := { s with test := { s.test with status := status } }
  match msg with
  | none => s
  | some msg =>
      let maxLen := statusMsgSize - 1
      let s :=
        if msg.length > maxLen then
          htestWarn
            (ascii "Status message too long: wrote " ++ ascii (toString maxLen) ++
              ascii " of " ++ ascii (toString maxLen) ++ ascii " characters.") s
        else s
      have hlt : (msg.take maxLen).length < statusMsgSize := by
        rw [List.length_take]
        exact Nat.lt_of_le_of_lt (Nat.min_le_left _ _) (by decide)
      { s with test := { s.test with statusMsg := ⟨msg.take maxLen, hlt⟩ } }

/-- `htest_return`.  A buffer that was zeroed has no place to return to. -/
def htestReturn (s : State) : Exec State :=
  if s.test.returnJmp then .ok s else .error .null

def htestPass (msg : Option Text) (s : State) : Exec State :=
  htestReturn (htestSetStatus .passed msg s)

def htestSkip (msg : Option Text) (s : State) : Exec State :=
  htestReturn (htestSetStatus .skipped msg s)

def htestFail (msg : Option Text) (s : State) : Exec State :=
  htestReturn (htestSetStatus .failed msg s)

/-- The bytes of a test as a string, of which those of the pointer `data` are first.  Where none of
these is zero, those `behind` them up to a zero are part of it. -/
def testString (data : ℕ) (behind : Text) : Text :=
  let bytes := leBytes 8 (BitVec.ofNat 64 data)
  if 0 ∈ bytes then bytes.takeWhile (· != 0) else bytes ++ behind

/-- The line of the format `"# %s"`; arguments behind the first are not looked at. -/
def hashLine (args : List Text) : Text := ascii "# " ++ args.headD []

/-- The line of the format `"# Assertion Failed: test %s at %s:%d:%s:"`. -/
def failedLine (name : Text) (assertion : Assertion) : Text :=
  ascii "# Assertion Failed: test " ++ name ++ ascii " at " ++ assertion.file ++ ascii ":" ++
    ascii (toString assertion.line) ++ ascii ":" ++ assertion.func ++ ascii ":"

/-- `__htest_assert`, and whether it returns.  In the second line the test stands in front of the
message. -/
def htestAssert (assertion : Assertion) (behind : Text) (s : State) : Exec (Bool × State) :=
  if !assertion.result then do
    let s := htestLog .info (failedLine s.test.name assertion) s
    let s := htestLog .info (hashLine [testString s.test.data behind, assertion.message]) s
    let s ← htestFail none s
    .ok (false, s)
  else .ok (true, s)

/-- `htest_create_resource`, where `found` tells whether `malloc` finds memory, and `create` of
the resource returns `data`; no result where it leaves by `htest_fail`. -/
def htestCreateResource (malloc : Malloc) (res : Resource) (arg : ℕ) (found : Bool) (data : ℕ)
    (s : State) : Exec (Option ℕ × State) := do
  let addr := malloc.address s.mallocs s.live
  let s := { s with mallocs := s.mallocs + 1 }
  if !found then do
    let s ← htestFail
      (some (ascii "Internal error: Could not allocate memory to track resource.")) s
    .ok (none, s)
  else do
    let s := { s with live := insert addr s.live }
    let handle ← s.readHandle addr
    let s ← s.writeHandle addr { handle with destroy := res.destroy }
    let s := s.note (.create res.create arg data)
    let handle ← s.readHandle addr
    let s ← s.writeHandle addr { handle with data := data }
    let s ← s.listNodeInit (.handle addr)
    let s ← s.listAdd (.handle addr) .resources
    let handle ← s.readHandle addr
    .ok (some handle.data, s)

/-- The variables of the loop of `htest_destroy`; an entry is known by its node. -/
structure DestroyState where
  res : Node
  tmp : Node
  state : State

/-- One pass of the loop of `htest_destroy`: the next entry is read in front of the body, and
the one behind it at the end. -/
def htestDestroyPass (st : DestroyState) : Exec (Pass DestroyState State) :=
  match st.res with
  | .resources => .ok (.done st.state)
  | .handle addr => do
      let s := st.state
      let handle ← s.readHandle addr
      let s := s.note (.release handle.destroy handle.data)
      let s ← s.listRm (.handle addr)
      let s ← s.free addr
      let tmp ← s.readNext st.tmp
      .ok (.next { res := st.tmp, tmp := tmp, state := s })

/-- `htest_destroy`; every pass but the last frees a handle. -/
def htestDestroy (s : State) : Exec State := do
  let res ← s.readNext .resources
  let tmp ← s.readNext res
  loop htestDestroyPass (s.live.card + 1) { res := res, tmp := tmp, state := s }

end Hlibc.Htest
