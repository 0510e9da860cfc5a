import Systemish.Foundation.Call
import Systemish.Foundation.Run
import Systemish.Foundation.LinkedList

/-!
# The linked queue

Embedding of `DS/queue`. The heap maps addresses to nodes, `0` is `NULL`, and each call of `malloc`
is told the address that it returns. Reading, writing or freeing what is not allocated is undefined.
The queue refines a list of values: `ds_queue_add` appends to it and `ds_queue_remove` takes its
head.
-/

namespace Systemish.DsQueue

open Foundation

/-- Struct `ds_qnode_t`. -/
abbrev Node := Cell ℕ ℤ

/-- Struct `ds_queue_t`. -/
structure Queue where
  head : ℕ
  tail : ℕ
  count : ℤ

/-- The heap, the queue, and the addresses that were freed, the last one first. -/
structure Memory where
  heap : ℕ → Option Node
  queue : Queue
  freed : List ℕ

namespace Memory

def setNode (memory : Memory) (address : ℕ) (node : Option Node) : Memory :=
  { memory with heap := Function.update memory.heap address node }

def setQueue (memory : Memory) (queue : Queue) : Memory := { memory with queue }

@[simp]
theorem setNode_queue (memory : Memory) (address : ℕ) (node : Option Node) :
    (memory.setNode address node).queue = memory.queue := rfl

@[simp]
theorem setQueue_queue (memory : Memory) (queue : Queue) :
    (memory.setQueue queue).queue = queue := rfl

@[simp]
theorem setNode_setNode (memory : Memory) (address : ℕ) (node node' : Option Node) :
    (memory.setNode address node).setNode address node' = memory.setNode address node' := by
  unfold setNode
  dsimp only
  rw [Function.update_idem]

end Memory

/-! ## The code -/

/-- Read a node. -/
def readNode (address : ℕ) : Call Memory Node := do
  let memory ← get
  match memory.heap address with
  | none => throw .undefined
  | some node => return node

/-- Write a node that is allocated. -/
def writeNode (address : ℕ) (node : Node) : Call Memory Unit := do
  let _ ← readNode address
  modify fun memory ↦ memory.setNode address (some node)

/-- `malloc` of a node, which returns `address`. What the node holds is not read before it is
written. -/
def malloc (address : ℕ) : Call Memory Unit :=
  modify fun memory ↦ if address = 0 then memory else memory.setNode address (some ⟨0, 0⟩)

def free (address : ℕ) : Call Memory Unit := do
  let _ ← readNode address
  modify fun memory ↦ { memory.setNode address none with freed := address :: memory.freed }

def dsQueueInit : Call Memory Unit := modify fun memory ↦ memory.setQueue ⟨0, 0, 0⟩

variable (asserts : Bool)

/-- `ds_queue_add`, where `malloc` returns `newNode`. -/
def dsQueueAdd (data : ℤ) (newNode : ℕ) : Call Memory Unit := do
  malloc newNode
  Call.check asserts (newNode ≠ 0)
  writeNode newNode ⟨data, 0⟩
  let q := (← get).queue
  if q.head = 0 then
    modify fun memory ↦ memory.setQueue { q with head := newNode, tail := newNode }
  else
    let tail ← readNode q.tail
    writeNode q.tail { tail with next := newNode }
    modify fun memory ↦ memory.setQueue { q with tail := newNode }
  modify fun memory ↦
    memory.setQueue { memory.queue with count := Int.bmod (memory.queue.count + 1) (2 ^ 32) }

def dsQueueRemove : Call Memory ℤ := do
  Call.check asserts ((← get).queue.head ≠ 0)
  let oldHead := (← get).queue.head
  let node ← readNode oldHead
  modify fun memory ↦ memory.setQueue
    { memory.queue with head := node.next, count := Int.bmod (memory.queue.count - 1) (2 ^ 32) }
  if (← get).queue.head = 0 then
    Call.check asserts ((← get).queue.count = 0)
    modify fun memory ↦ memory.setQueue { memory.queue with tail := 0 }
  free oldHead
  return node.data

def dsQueueIsEmpty : Call Memory ℤ := do
  if (← get).queue.count = 0 then return 1 else return 0

def dsQueueSize : Call Memory ℤ := do
  return (← get).queue.count

/-- `ds_queue_free`, whose loop runs for at most `rounds` rounds. -/
def dsQueueFree : (rounds : ℕ) → Call Memory Unit
  | 0 => throw .pending
  | rounds + 1 => do
    if (← dsQueueSize) ≠ 0 then
      let _ ← dsQueueRemove asserts
      dsQueueFree rounds
    else pure ()

/-- The loop of `ds_queue_print` from node `t` on, for at most `rounds` rounds, and the values that
it prints. -/
def dsQueuePrint : (rounds t : ℕ) → Call Memory (List ℤ)
  | 0, _ => throw .pending
  | rounds + 1, t => do
    if t ≠ 0 then
      let node ← readNode t
      let rest ← dsQueuePrint rounds node.next
      return node.data :: rest
    else return []

/-! ## What each function does -/

/-- The addresses and values of the nodes from the head on: a list that ends with `NULL`, at whose
end the tail is, and whose length is the count. -/
structure Represents (memory : Memory) (nodes : List (ℕ × ℤ)) : Prop where
  null : memory.heap 0 = none
  chain : Segment memory.heap memory.queue.head nodes 0
  tail : memory.queue.tail = (nodes.getLast?.map Prod.fst).getD 0
  count : memory.queue.count = nodes.length
  length_lt : nodes.length < 2 ^ 31

theorem ensures_readNode {memory : Memory} {address : ℕ} {node : Node}
    (h : memory.heap address = some node) (post : Except Stop Node → Memory → Prop) :
    (readNode address).Ensures memory post ↔ post (.ok node) memory := by
  simp only [readNode, Call.ensures_bind, Call.ensures_get, h, Call.ensures_pure]

theorem ensures_writeNode {memory : Memory} {address : ℕ} {old : Node}
    (h : memory.heap address = some old) (node : Node) (post : Except Stop Unit → Memory → Prop) :
    (writeNode address node).Ensures memory post ↔
      post (.ok ()) (memory.setNode address (some node)) := by
  simp only [writeNode, Call.ensures_bind, ensures_readNode h, Call.ensures_modify]

theorem ensures_free {memory : Memory} {address : ℕ} {node : Node}
    (h : memory.heap address = some node) (post : Except Stop Unit → Memory → Prop) :
    (free address).Ensures memory post ↔
      post (.ok ()) { memory.setNode address none with freed := address :: memory.freed } := by
  simp only [free, Call.ensures_bind, ensures_readNode h, Call.ensures_modify]

variable {memory : Memory} {nodes : List (ℕ × ℤ)}

theorem Represents.head_eq_zero_iff (h : Represents memory nodes) :
    memory.queue.head = 0 ↔ nodes = [] := h.chain.start_eq_stop_iff h.null

theorem bmod_natCast {n : ℕ} (h : n < 2 ^ 31) : Int.bmod n (2 ^ 32) = n := by
  apply Int.bmod_eq_of_le <;> omega

theorem Represents.head_eq {address : ℕ} {value : ℤ}
    (h : Represents memory ((address, value) :: nodes)) : memory.queue.head = address := by
  obtain ⟨_, hchain, -⟩ := h
  generalize memory.queue.head = head at hchain
  cases hchain with
  | cons => rfl

theorem Represents.tail_eq {last : ℕ} {value : ℤ}
    (h : Represents memory (nodes ++ [(last, value)])) : memory.queue.tail = last := by
  rw [h.tail, List.getLast?_concat]
  rfl

/-- A node that becomes the only one. -/
theorem Represents.first (h : Represents memory []) (data : ℤ) {newNode : ℕ} (hne : newNode ≠ 0)
    {count : ℤ} (hcount : count = 1) :
    Represents ((memory.setNode newNode (some ⟨data, 0⟩)).setQueue ⟨newNode, newNode, count⟩)
      [(newNode, data)] where
  null := (Function.update_of_ne hne.symm _ _).trans h.null
  chain := .cons (Function.update_self ..) (.nil 0)
  tail := rfl
  count := hcount
  length_lt := (by decide : 1 < 2 ^ 31)

/-- A node that is linked to the last one. -/
theorem Represents.append {last : ℕ} {value : ℤ}
    (h : Represents memory (nodes ++ [(last, value)])) (data : ℤ) {newNode : ℕ}
    (hne : newNode ≠ 0) (hfresh : memory.heap newNode = none) {count : ℤ}
    (hcount : count = (nodes ++ [(last, value)] ++ [(newNode, data)]).length)
    (hlength : (nodes ++ [(last, value)]).length + 1 < 2 ^ 31) :
    Represents (((memory.setNode newNode (some ⟨data, 0⟩)).setNode last
        (some ⟨value, newNode⟩)).setQueue ⟨memory.queue.head, newNode, count⟩)
      (nodes ++ [(last, value)] ++ [(newNode, data)]) where
  null := by
    have hlast : (0 : ℕ) ≠ last := by
      rintro rfl
      exact Option.some_ne_none _ ((h.chain.concat h.null hfresh data).1.symm.trans h.null)
    exact (Function.update_of_ne hlast _ _).trans
      ((Function.update_of_ne hne.symm _ _).trans h.null)
  chain := (h.chain.concat h.null hfresh data).2
  tail := by
    rw [List.getLast?_concat]
    rfl
  count := hcount
  length_lt := by
    rw [List.length_append]
    exact hlength

theorem dsQueueAdd_ensures (h : Represents memory nodes) (data : ℤ) {newNode : ℕ}
    (hne : newNode ≠ 0) (hfresh : memory.heap newNode = none)
    (hlength : nodes.length + 1 < 2 ^ 31) :
    (dsQueueAdd asserts data newNode).Ensures memory fun result final ↦
      result = .ok () ∧ Represents final (nodes ++ [(newNode, data)]) ∧
        final.freed = memory.freed := by
  have hnew : (memory.setNode newNode (some ⟨0, 0⟩)).heap newNode = some ⟨0, 0⟩ :=
    Function.update_self ..
  have hcount : Int.bmod (memory.queue.count + 1) (2 ^ 32) =
      ((nodes ++ [(newNode, data)]).length : ℕ) := by
    rw [h.count, List.length_append]
    exact bmod_natCast hlength
  simp only [dsQueueAdd, malloc, Call.ensures_bind, Call.ensures_modify, Call.ensures_check,
    if_neg hne, ensures_writeNode hnew, Call.ensures_get, Memory.setNode_setNode,
    Memory.setNode_queue]
  rw [if_neg fun hcheck ↦ hcheck.2 hne]
  by_cases hhead : memory.queue.head = 0
  · obtain rfl := h.head_eq_zero_iff.mp hhead
    rw [if_pos hhead]
    exact ⟨rfl, h.first data hne hcount, rfl⟩
  · obtain ⟨front, ⟨last, value⟩, rfl⟩ :=
      (List.eq_nil_or_concat' nodes).resolve_left (mt h.head_eq_zero_iff.mpr hhead)
    have hlast := (h.chain.concat h.null hfresh data).1
    have hne' : last ≠ newNode := by
      rintro rfl
      exact Option.some_ne_none _ (hlast.symm.trans hfresh)
    have hcell : (memory.setNode newNode (some ⟨data, 0⟩)).heap last = some ⟨value, 0⟩ :=
      (Function.update_of_ne hne' _ _).trans hlast
    simp only [if_neg hhead, h.tail_eq, Call.ensures_bind, ensures_readNode hcell,
      ensures_writeNode hcell, Call.ensures_modify]
    exact ⟨trivial, h.append data hne hfresh hcount hlength, rfl⟩

theorem dsQueueRemove_ensures {address : ℕ} {value : ℤ}
    (h : Represents memory ((address, value) :: nodes)) :
    (dsQueueRemove asserts).Ensures memory fun result final ↦
      result = .ok value ∧ Represents final nodes ∧ final.freed = address :: memory.freed ∧
        final.heap = Function.update memory.heap address none := by
  have hlength : nodes.length < 2 ^ 31 := Nat.lt_of_succ_lt h.length_lt
  have hcount : Int.bmod (memory.queue.count - 1) (2 ^ 32) = nodes.length := by
    rw [h.count, List.length_cons, Nat.cast_succ, add_sub_cancel_right]
    exact bmod_natCast hlength
  have hne : address ≠ 0 := h.head_eq ▸ mt h.head_eq_zero_iff.mp (List.cons_ne_nil _ _)
  have hchain := h.chain
  rw [h.head_eq] at hchain
  obtain ⟨next, hcell, hrest⟩ := hchain.tail_free h.null
  simp only [dsQueueRemove, Call.ensures_bind, Call.ensures_get, Call.ensures_check, h.head_eq,
    ensures_readNode hcell, Call.ensures_modify, Memory.setQueue_queue, hcount]
  rw [if_neg fun hcheck ↦ hcheck.2 hne]
  have hnull : Function.update memory.heap address none 0 = none :=
    (Function.update_of_ne hne.symm _ _).trans h.null
  have hcell (queue : Queue) : (memory.setQueue queue).heap address = some ⟨value, next⟩ := hcell
  by_cases hnext : next = 0
  · obtain rfl := (hrest.start_eq_stop_iff hnull).mp hnext
    simp only [if_pos hnext, Call.ensures_bind, Call.ensures_get, Call.ensures_check,
      Call.ensures_modify]
    rw [if_neg fun hcheck ↦ hcheck.2 rfl]
    apply (ensures_free (hcell _) _).mpr
    exact ⟨rfl, ⟨hnull, hrest, rfl, rfl, hlength⟩, rfl, rfl⟩
  · have hnonempty : nodes ≠ [] := mt (hrest.start_eq_stop_iff hnull).mpr hnext
    obtain ⟨front, last, rfl⟩ := (List.eq_nil_or_concat' nodes).resolve_left hnonempty
    rw [← List.cons_append] at h
    have htail : memory.queue.tail = ((front ++ [last]).getLast?.map Prod.fst).getD 0 := by
      rw [h.tail_eq, List.getLast?_concat]
      rfl
    simp only [if_neg hnext, Call.ensures_bind]
    rw [ensures_free (hcell _)]
    exact ⟨rfl, ⟨hnull, hrest, htail, rfl, hlength⟩, rfl, rfl⟩

theorem ensures_dsQueueSize (memory : Memory) (post : Except Stop ℤ → Memory → Prop) :
    dsQueueSize.Ensures memory post ↔ post (.ok memory.queue.count) memory := Iff.rfl

/-- `ds_queue_free` frees the nodes one after the other. -/
theorem dsQueueFree_ensures (h : Represents memory nodes) {rounds : ℕ}
    (hrounds : nodes.length < rounds) :
    (dsQueueFree asserts rounds).Ensures memory fun result final ↦
      result = .ok () ∧ Represents final [] ∧
        final.freed = (nodes.map Prod.fst).reverse ++ memory.freed ∧
        ∀ address, final.heap address =
          if address ∈ nodes.map Prod.fst then none else memory.heap address := by
  induction rounds generalizing memory nodes with
  | zero => exact absurd hrounds (Nat.not_lt_zero _)
  | succ rounds ih =>
    simp only [dsQueueFree, Call.ensures_bind, ensures_dsQueueSize]
    cases nodes with
    | nil =>
      have hcount : memory.queue.count = 0 := h.count
      rw [if_neg (not_not.mpr hcount)]
      exact ⟨rfl, h, rfl, fun _ ↦ rfl⟩
    | cons node nodes =>
      have hcount : memory.queue.count ≠ 0 := by
        rw [h.count, List.length_cons]
        exact Nat.cast_ne_zero.mpr (Nat.succ_ne_zero _)
      rw [if_pos hcount, Call.ensures_bind]
      refine (dsQueueRemove_ensures asserts h).mono fun result middle hmiddle ↦ ?_
      obtain ⟨rfl, hrepresents, hfreed, hheap⟩ := hmiddle
      refine (ih hrepresents (Nat.lt_of_succ_lt_succ hrounds)).mono fun result final hfinal ↦ ?_
      obtain ⟨hresult, hempty, hfreed', hheap'⟩ := hfinal
      refine ⟨hresult, hempty, ?_, fun address ↦ ?_⟩
      · rw [hfreed', hfreed, List.map_cons, List.reverse_cons, List.append_assoc,
          List.singleton_append]
      · rw [hheap', hheap, Function.update_apply, List.map_cons]
        by_cases hnode : address = node.1
        · rw [if_pos hnode, ite_self, if_pos (List.mem_cons.mpr (.inl hnode))]
        · simp only [List.mem_cons, hnode, false_or, if_false]

theorem dsQueuePrint_ensures (hnull : memory.heap 0 = none) {t : ℕ}
    (h : Segment memory.heap t nodes 0) {rounds : ℕ} (hrounds : nodes.length < rounds) :
    (dsQueuePrint rounds t).Ensures memory fun result final ↦
      result = .ok (nodes.map Prod.snd) ∧ final = memory := by
  induction rounds generalizing t nodes with
  | zero => exact absurd hrounds (Nat.not_lt_zero _)
  | succ rounds ih =>
    unfold dsQueuePrint
    cases h with
    | nil =>
      rw [if_neg (not_not.mpr rfl)]
      exact ⟨rfl, rfl⟩
    | cons hcell h =>
      have hne : t ≠ 0 := by
        rintro rfl
        exact Option.some_ne_none _ (hcell.symm.trans hnull)
      simp only [if_pos hne, Call.ensures_bind, ensures_readNode hcell]
      refine (ih h (Nat.lt_of_succ_lt_succ hrounds)).mono fun result final hfinal ↦ ?_
      obtain ⟨rfl, rfl⟩ := hfinal
      exact ⟨rfl, rfl⟩

/-! ## Sequences of operations -/

/-- The queue, and the values that were added and not yet removed, the oldest one first. -/
structure World where
  memory : Memory
  values : List ℤ

/-- One call. `malloc` returns `newNode`. -/
inductive Op where
  | init
  | add (data : ℤ) (newNode : ℕ)
  | remove
  | free

/-- What a call does to the list of values. A value can only be removed if there is one, and there
are fewer than `2 ^ 31` values. -/
def Op.apply : Op → List ℤ → Option (List ℤ)
  | .init, _ => some []
  | .add data _, values => if values.length + 1 < 2 ^ 31 then some (values ++ [data]) else none
  | .remove, values => if values = [] then none else some values.tail
  | .free, _ => some []

/-- What a call does to the memory. -/
def Op.run (rounds : ℕ) : Op → Call Memory Unit
  | .init => dsQueueInit
  | .add data newNode => dsQueueAdd asserts data newNode
  | .remove => do
    let _ ← dsQueueRemove asserts
  | .free => dsQueueFree asserts rounds

namespace World

/-- A queue that has been initialised, in a memory that may hold anything. -/
def start (memory : Memory) : World := ⟨(dsQueueInit.eval memory).2, []⟩

/-- A call within the contract. The loop of `ds_queue_free` is given one round more than there are
values. -/
def step (world : World) (op : Op) : Option World :=
  match op.apply world.values, (op.run asserts (world.values.length + 1)).eval world.memory with
  | some values, (.ok _, memory) => some ⟨memory, values⟩
  | _, _ => none

/-- Assumption about `malloc`: it succeeds, with an address that is not in use. -/
def MallocLaw (world : World) (op : Op) : Prop :=
  ∀ data newNode, op = .add data newNode → newNode ≠ 0 ∧ world.memory.heap newNode = none

end World

variable {asserts}

theorem World.step_eq_some {world after : World} {op : Op}
    (h : world.step asserts op = some after) :
    ∃ values, op.apply world.values = some values ∧
      after = ⟨((op.run asserts (world.values.length + 1)).eval world.memory).2, values⟩ := by
  unfold World.step at h
  split at h
  · next values _ memory hvalues heval =>
    rw [heval]
    exact ⟨values, hvalues, (Option.some.inj h).symm⟩
  · exact absurd h (Option.some_ne_none _).symm

/-- The linked queue stands for the list of values, and every call of the contract returns what it
should. -/
structure Refined (asserts : Bool) (world : World) (nodes : List (ℕ × ℤ)) : Prop where
  represents : Represents world.memory nodes
  values : nodes.map Prod.snd = world.values
  acyclic : (nodes.map Prod.fst).Nodup
  tail_eq_zero_iff : world.memory.queue.tail = 0 ↔ world.memory.queue.head = 0
  size : dsQueueSize.eval world.memory = (.ok (world.values.length : ℤ), world.memory)
  isEmpty : dsQueueIsEmpty.eval world.memory =
    (.ok (if world.values = [] then 1 else 0), world.memory)
  print : ∀ rounds, world.values.length < rounds →
    (dsQueuePrint rounds world.memory.queue.head).eval world.memory =
      (.ok world.values, world.memory)
  add : ∀ data newNode, newNode ≠ 0 → world.memory.heap newNode = none →
    world.values.length + 1 < 2 ^ 31 →
      ((dsQueueAdd asserts data newNode).eval world.memory).1 = .ok ()
  remove : ∀ value rest, world.values = value :: rest →
    ((dsQueueRemove asserts).eval world.memory).1 = .ok value
  free : ∀ rounds, world.values.length < rounds → ∃ final,
    (dsQueueFree asserts rounds).eval world.memory = (.ok (), final) ∧ Represents final [] ∧
      final.freed = (nodes.map Prod.fst).reverse ++ world.memory.freed ∧
      ∀ address, final.heap address =
        if address ∈ nodes.map Prod.fst then none else world.memory.heap address

theorem Represents.tail_eq_zero_iff (h : Represents memory nodes) :
    memory.queue.tail = 0 ↔ memory.queue.head = 0 := by
  rw [h.head_eq_zero_iff, h.tail]
  rcases nodes.eq_nil_or_concat' with rfl | ⟨front, last, rfl⟩
  · exact iff_of_true rfl rfl
  · apply iff_of_false _ (List.append_ne_nil_of_right_ne_nil _ (List.cons_ne_nil _ _))
    intro hzero
    rw [List.getLast?_concat] at hzero
    have hcell := h.chain.isSome_of_mem (List.mem_append_right front List.mem_cons_self)
    exact hcell ((congrArg memory.heap hzero).trans h.null)

theorem Represents.refined {world : World} (h : Represents world.memory nodes)
    (hvalues : nodes.map Prod.snd = world.values) : Refined asserts world nodes := by
  have hlength : nodes.length = world.values.length := by rw [← hvalues, List.length_map]
  refine ⟨h, hvalues, h.chain.nodup h.null, h.tail_eq_zero_iff, ?_, ?_, ?_, ?_, ?_, ?_⟩
  · rw [← hlength, ← h.count]
    rfl
  · have hcount : world.memory.queue.count = 0 ↔ world.values = [] := by
      rw [h.count, hlength, Nat.cast_eq_zero, List.length_eq_zero_iff]
    have hensures : dsQueueIsEmpty.Ensures world.memory fun result final ↦
        result = .ok (if world.values = [] then 1 else 0) ∧ final = world.memory := by
      simp only [dsQueueIsEmpty, Call.ensures_bind, Call.ensures_get, hcount]
      split <;> exact ⟨rfl, rfl⟩
    exact Prod.ext_iff.mpr hensures
  · intro rounds hrounds
    rw [← hvalues]
    exact Prod.ext_iff.mpr (dsQueuePrint_ensures h.null h.chain (hlength ▸ hrounds))
  · intro data newNode hne hfresh hbound
    exact (dsQueueAdd_ensures asserts h data hne hfresh (hlength ▸ hbound)).1
  · intro value rest hrest
    obtain ⟨⟨address, _⟩, nodes, rfl, rfl, -⟩ := List.map_eq_cons_iff.mp (hvalues.trans hrest)
    exact (dsQueueRemove_ensures asserts h).1
  · intro rounds hrounds
    obtain ⟨hresult, hfinal⟩ := Call.ensures_iff.mp
      (dsQueueFree_ensures asserts h (hlength ▸ hrounds))
    exact ⟨_, Prod.ext hresult rfl, hfinal⟩

theorem start_represents {memory : Memory} (hnull : memory.heap 0 = none) :
    Represents (World.start memory).memory [] :=
  ⟨hnull, .nil 0, rfl, rfl, by decide⟩

/-- One call within the contract. -/
theorem step_represents {world after : World} {op : Op} (h : Represents world.memory nodes)
    (hvalues : nodes.map Prod.snd = world.values) (hmalloc : world.MallocLaw op)
    (hstep : world.step asserts op = some after) :
    ∃ nodes, Represents after.memory nodes ∧ nodes.map Prod.snd = after.values := by
  have hlength : nodes.length = world.values.length := by rw [← hvalues, List.length_map]
  obtain ⟨values, hvalues', hafter⟩ := World.step_eq_some hstep
  rw [hafter]
  cases op with
  | init =>
    obtain rfl := Option.some.inj hvalues'
    exact ⟨[], ⟨h.null, .nil 0, rfl, rfl, by decide⟩, rfl⟩
  | add data newNode =>
    rw [Op.apply, Option.ite_none_right_eq_some, Option.some.injEq] at hvalues'
    obtain ⟨hbound, rfl⟩ := hvalues'
    obtain ⟨hne, hfresh⟩ := hmalloc data newNode rfl
    have hadd := Call.ensures_iff.mp
      (dsQueueAdd_ensures asserts h data hne hfresh (hlength ▸ hbound))
    exact ⟨_, hadd.2.1, by rw [List.map_append, hvalues]; rfl⟩
  | remove =>
    rw [Op.apply, Option.ite_none_left_eq_some, Option.some.injEq] at hvalues'
    obtain ⟨hne, rfl⟩ := hvalues'
    cases nodes with
    | nil => exact absurd hvalues.symm hne
    | cons node nodes =>
      have hremove : (Op.remove.run asserts (world.values.length + 1)).Ensures world.memory
          fun _ final ↦ Represents final nodes := by
        simp only [Op.run, Call.ensures_bind]
        refine (dsQueueRemove_ensures asserts h).mono fun result final hfinal ↦ ?_
        obtain ⟨rfl, hrepresents, -⟩ := hfinal
        exact hrepresents
      exact ⟨nodes, hremove, by rw [← hvalues]; rfl⟩
  | free =>
    obtain rfl := Option.some.inj hvalues'
    have hrounds : nodes.length < world.values.length + 1 := Nat.lt_succ_of_le hlength.le
    have hfree := Call.ensures_iff.mp (dsQueueFree_ensures asserts h hrounds)
    exact ⟨[], hfree.2.1, rfl⟩

/-- Whatever sequence of calls is made within the contract, the linked queue refines a list of
values. -/
theorem dsQueue_refines_fifo {memory : Memory} (hnull : memory.heap 0 = none) {asserts : Bool}
    {history : List (World × Op)} {world : World}
    (hrun : Run (World.step asserts) World.MallocLaw (World.start memory) history world) :
    ∃ nodes, Refined asserts world nodes := by
  obtain ⟨nodes, h, hvalues⟩ := hrun.invariant
    (fun world ↦ ∃ nodes, Represents world.memory nodes ∧ nodes.map Prod.snd = world.values)
    ⟨[], start_represents hnull, rfl⟩
    fun _ _ _ ⟨_, h, hvalues⟩ hmalloc hstep ↦ step_represents h hvalues hmalloc hstep
  exact ⟨nodes, h.refined hvalues⟩

/-- Two values are added to an empty queue in an empty memory, and one is removed. -/
theorem dsQueue_refines_after_remove : ∃ history world,
    Run (World.step true) World.MallocLaw (World.start ⟨fun _ ↦ none, ⟨1, 2, 3⟩, []⟩) history
      world ∧
      world.values = [8] ∧ ∃ nodes, Refined true world nodes := by
  have hmalloc {world : World} (data : ℤ) {newNode : ℕ} (hnull : newNode ≠ 0)
      (hfree : world.memory.heap newNode = none) : World.MallocLaw world (.add data newNode) := by
    rintro data newNode hop
    obtain ⟨rfl, rfl⟩ := Op.add.inj hop
    exact ⟨hnull, hfree⟩
  have hremove (world : World) : World.MallocLaw world .remove := fun _ _ hop ↦ Op.noConfusion hop
  have hstart : Run (World.step true) World.MallocLaw
      (World.start ⟨fun _ ↦ none, ⟨1, 2, 3⟩, []⟩) [] _ := .start
  have hfirst := hstart.next (hmalloc 7 (by decide : 16 ≠ 0) rfl) rfl
  have hsecond := hfirst.next (hmalloc 8 (by decide : 32 ≠ 0) rfl) rfl
  have hrun := hsecond.next (hremove _) rfl
  exact ⟨_, _, hrun, rfl, dsQueue_refines_fifo rfl hrun⟩

end Systemish.DsQueue
