import Mathlib

/-!
# The raw Ethernet sender

The loop of `sender.cc`. It fills in one packet buffer, posts it inline, so that the
bytes are taken when it posts, and polls for at most one completion. A post into a
full send queue returns a positive `errno` and sends nothing. `size_t` has 64 bits.
-/

namespace Systemish.RawEth

def kSQDepth : ℕ := 512

def kBaseDstPort : ℕ := 3185

/-- `htons`: the two bytes of a 16-bit number swapped. -/
def htons (x : ℕ) : ℕ := x % 256 * 256 + x / 256 % 256

theorem htons_inj {x y : ℕ} (hx : x < 2 ^ 16) (hy : y < 2 ^ 16) (h : htons x = htons y) :
    x = y := by
  rw [htons, htons] at h
  omega

/-- The port of a receiver thread as it stands in a packet and in a flow rule. -/
def portOf (thread : ℕ) : ℕ := htons ((kBaseDstPort + thread) % 2 ^ 16)

/-- The fields of a packet that the sender changes. -/
structure Packet where
  dstPort : ℕ
  receiverThread : ℕ
  seqNum : ℕ
  deriving DecidableEq

/-- What `format_packet` makes of a packet of zeros. -/
def formatPacket : Packet := ⟨htons kBaseDstPort, 0, 0⟩

/-- What `ibv_post_send` returns when it fails. -/
structure Errno where
  value : ℤ
  positive : 0 < value

/-- `ENOMEM`. -/
def Errno.noMemory : Errno := ⟨12, Int.natCast_pos.mpr (Nat.succ_pos 11)⟩

/-! ## The loop -/

/-- Where the loop is. -/
inductive SenderLocation where
  | filling
  | posting
  /-- With the value that `ibv_post_send` has returned. -/
  | checking (ret : ℤ)
  /-- After `exit(1)`. -/
  | exited
  deriving DecidableEq

/-- The variables of the sender. `outstanding` is the number of requests in its send queue whose
completions have not been polled. -/
structure Sender (threads : ℕ) where
  location : SenderLocation
  packet : Packet
  seqNum : Fin threads → ℕ
  nbTx : ℕ
  outstanding : ℕ

namespace Sender

variable {threads : ℕ}

/-- In front of the loop. -/
def start (threads : ℕ) : Sender threads where
  location := .filling
  packet := formatPacket
  seqNum _ := 0
  nbTx := 0
  outstanding := 0

/-- Direct the packet to a receiver thread and format the user info. -/
def fill (sender : Sender threads) (target : Fin threads) : Sender threads :=
  { sender with
    location := .posting
    packet := ⟨portOf target, target, sender.seqNum target⟩
    seqNum := Function.update sender.seqNum target ((sender.seqNum target + 1) % 2 ^ 64) }

/-- `ibv_post_send`, with the packets that it sends. -/
def post (sender : Sender threads) (errno : Errno) : Sender threads × List Packet :=
  if sender.outstanding < kSQDepth then
    ({ sender with location := .checking 0, outstanding := sender.outstanding + 1 },
      [sender.packet])
  else ({ sender with location := .checking errno.value }, [])

/-- The check of `ret` and the rest of the loop. `found` says whether the poll finds a
completion. -/
def reap (sender : Sender threads) (ret : ℤ) (found : Bool) : Sender threads :=
  if ret < 0 then { sender with location := .exited }
  else
    { sender with
      location := .filling
      nbTx := (sender.nbTx + 1) % 2 ^ 64
      outstanding := sender.outstanding - found.toNat }

end Sender

/-- What comes from outside in one turn of the loop. -/
structure Turn (threads : ℕ) where
  target : Fin threads
  errno : Errno
  found : Bool

variable {threads : ℕ}

/-- One turn of the loop. -/
def Sender.turn (sender : Sender threads) (turn : Turn threads) : Sender threads × List Packet :=
  let (sender, sent) := (sender.fill turn.target).post turn.errno
  match sender.location with
  | .checking ret => (sender.reap ret turn.found, sent)
  | _ => (sender, sent)

/-- The sender after a number of turns, and what it has sent. -/
def turns (schedule : ℕ → Turn threads) : (count : ℕ) →
    Sender threads × List Packet
  | 0 => (Sender.start threads, [])
  | count + 1 =>
    let (sender, sent) := turns schedule count
    match sender.location with
    | .filling => ((sender.turn (schedule count)).1, sent ++ (sender.turn (schedule count)).2)
    | _ => (sender, sent)

/-- The packets to each receiver carry the numbers up to its counter, and all packets are counted;
or the program has exited. -/
def Faithful (state : Sender threads × List Packet) : Prop :=
  state.1.location = .exited ∨
    (∀ thread : Fin threads,
      (state.2.filter fun packet ↦ packet.receiverThread = thread.val).map Packet.seqNum =
        List.range (state.1.seqNum thread)) ∧
    state.1.nbTx = state.2.length

/-! ## What a turn does -/

variable {schedule : ℕ → Turn threads}

/-- The turns so far whose poll found nothing. -/
def emptyPolls (schedule : ℕ → Turn threads) (count : ℕ) : ℕ :=
  (List.range count).countP fun i ↦ !(schedule i).found

/-- The numbers taken so far for a receiver. -/
def taken (schedule : ℕ → Turn threads) (thread : Fin threads) (count : ℕ) : ℕ :=
  (List.range count).countP fun i ↦ (schedule i).target = thread

theorem emptyPolls_succ (schedule : ℕ → Turn threads) (count : ℕ) :
    emptyPolls schedule (count + 1) =
      emptyPolls schedule count + (1 - (schedule count).found.toNat) := by
  rw [emptyPolls, List.range_succ, List.countP_append, List.countP_singleton, emptyPolls]
  cases (schedule count).found with
  | false => rfl
  | true => rfl

theorem taken_succ (schedule : ℕ → Turn threads) (thread : Fin threads) (count : ℕ) :
    taken schedule thread (count + 1) =
      taken schedule thread count + if (schedule count).target = thread then 1 else 0 := by
  rw [taken, List.range_succ, List.countP_append, List.countP_singleton, taken]
  simp only [decide_eq_true_eq]

theorem taken_le (schedule : ℕ → Turn threads) (thread : Fin threads) (count : ℕ) :
    taken schedule thread count ≤ count :=
  List.countP_le_length.trans (List.length_range.le)

/-- The packet of a turn. -/
def Sender.packetFor (sender : Sender threads) (target : Fin threads) : Packet :=
  ⟨portOf target, target, sender.seqNum target⟩

/-- A turn, whether the post succeeds or not. The program goes on in both cases: the return value is
never negative. -/
theorem turn_eq (sender : Sender threads) (turn : Turn threads) :
    sender.turn turn =
      ({ location := .filling
         packet := sender.packetFor turn.target
         seqNum := Function.update sender.seqNum turn.target
           ((sender.seqNum turn.target + 1) % 2 ^ 64)
         nbTx := (sender.nbTx + 1) % 2 ^ 64
         outstanding :=
           sender.outstanding + (if sender.outstanding < kSQDepth then 1 else 0) -
             turn.found.toNat },
        if sender.outstanding < kSQDepth then [sender.packetFor turn.target] else []) := by
  have herrno : ¬ turn.errno.value < 0 := not_lt.mpr (le_of_lt turn.errno.positive)
  by_cases hroom : sender.outstanding < kSQDepth
  · simp only [Sender.turn, Sender.post, Sender.fill, hroom, if_true, Sender.reap, lt_irrefl,
      if_false, Sender.packetFor]
  · simp only [Sender.turn, Sender.post, Sender.fill, hroom, if_false, Sender.reap, herrno,
      Sender.packetFor, add_zero]

theorem turn_nbTx (sender : Sender threads) (turn : Turn threads) :
    (sender.turn turn).1.nbTx = (sender.nbTx + 1) % 2 ^ 64 := by
  rw [turn_eq]

theorem turn_seqNum (sender : Sender threads) (turn : Turn threads) :
    (sender.turn turn).1.seqNum = Function.update sender.seqNum turn.target
      ((sender.seqNum turn.target + 1) % 2 ^ 64) := by
  rw [turn_eq]

theorem turn_outstanding (sender : Sender threads) (turn : Turn threads) :
    (sender.turn turn).1.outstanding =
      sender.outstanding + (if sender.outstanding < kSQDepth then 1 else 0) -
        turn.found.toNat := by
  rw [turn_eq]

theorem turn_sent (sender : Sender threads) (turn : Turn threads) :
    (sender.turn turn).2 =
      if sender.outstanding < kSQDepth then [sender.packetFor turn.target] else [] := by
  rw [turn_eq]

theorem turns_location (schedule : ℕ → Turn threads) (count : ℕ) :
    (turns schedule count).1.location = .filling := by
  induction count with
  | zero => rfl
  | succ count ih =>
    rw [turns]
    simp only [ih, turn_eq]

theorem turns_succ (schedule : ℕ → Turn threads) (count : ℕ) :
    turns schedule (count + 1) =
      (((turns schedule count).1.turn (schedule count)).1,
        (turns schedule count).2 ++
          ((turns schedule count).1.turn (schedule count)).2) := by
  rw [turns]
  simp only [turns_location schedule count]

theorem nbTx_turns (count : ℕ) : (turns schedule count).1.nbTx = count % 2 ^ 64 := by
  induction count with
  | zero => rfl
  | succ count ih => rw [turns_succ, turn_nbTx, ih, Nat.mod_add_mod]

theorem seqNum_turns (schedule : ℕ → Turn threads) (thread : Fin threads) (count : ℕ) :
    (turns schedule count).1.seqNum thread = taken schedule thread count % 2 ^ 64 := by
  induction count with
  | zero => rfl
  | succ count ih =>
    rw [turns_succ, turn_seqNum, taken_succ]
    by_cases htarget : (schedule count).target = thread
    · rw [htarget, Function.update_self, ih, if_pos rfl, Nat.mod_add_mod]
    · rw [Function.update_of_ne (Ne.symm htarget), ih, if_neg htarget, add_zero]

/-- Every post of the first turns succeeds. -/
def AllPosted (schedule : ℕ → Turn threads) (count : ℕ) : Prop :=
  ∀ i < count, (turns schedule i).1.outstanding < kSQDepth

theorem allPosted_succ {count : ℕ} :
    AllPosted schedule (count + 1) ↔
      AllPosted schedule count ∧
        (turns schedule count).1.outstanding < kSQDepth :=
  Nat.forall_lt_succ_right

/-- The requests in the send queue are those of the empty polls: each other poll takes back what
its turn has put in. -/
theorem outstanding_turns {count : ℕ} (h : AllPosted schedule count) :
    (turns schedule count).1.outstanding = emptyPolls schedule count := by
  induction count with
  | zero => rfl
  | succ count ih =>
    obtain ⟨hbefore, hroom⟩ := allPosted_succ.mp h
    rw [turns_succ, turn_outstanding, if_pos hroom, emptyPolls_succ, ← ih hbefore]
    cases (schedule count).found with
    | false => rfl
    | true => rfl

theorem emptyPolls_mono {i count : ℕ} (h : i ≤ count) :
    emptyPolls schedule i ≤ emptyPolls schedule count := by
  induction count, h using Nat.le_induction with
  | base => exact le_rfl
  | succ count _ ih =>
    rw [emptyPolls_succ]
    exact Nat.le_add_right_of_le ih

theorem allPosted_iff {count : ℕ} :
    AllPosted schedule count ↔ emptyPolls schedule (count - 1) < kSQDepth := by
  induction count with
  | zero => exact iff_of_true (fun _ h ↦ absurd h (Nat.not_lt_zero _)) (Nat.succ_pos 511)
  | succ count ih =>
    rw [allPosted_succ, ih, Nat.add_sub_cancel]
    constructor
    · rintro ⟨hbefore, hroom⟩
      rwa [outstanding_turns (ih.mpr hbefore)] at hroom
    · intro hpolls
      have hbefore : emptyPolls schedule (count - 1) < kSQDepth :=
        Nat.lt_of_le_of_lt (emptyPolls_mono (Nat.sub_le count 1)) hpolls
      refine ⟨hbefore, ?_⟩
      rwa [outstanding_turns (ih.mpr hbefore)]

/-! ## What is sent -/

theorem length_turns_le (schedule : ℕ → Turn threads) (count : ℕ) :
    (turns schedule count).2.length ≤ count := by
  induction count with
  | zero => exact le_rfl
  | succ count ih =>
    rw [turns_succ, turn_sent, List.length_append]
    refine Nat.add_le_add ih ?_
    split
    · exact le_rfl
    · exact Nat.zero_le 1

theorem length_turns_eq_iff (count : ℕ) :
    (turns schedule count).2.length = count ↔ AllPosted schedule count := by
  induction count with
  | zero => exact iff_of_true rfl fun _ h ↦ absurd h (Nat.not_lt_zero _)
  | succ count ih =>
    have hle := length_turns_le schedule count
    rw [turns_succ, turn_sent, List.length_append, allPosted_succ, ← ih]
    split
    · next hroom =>
      rw [List.length_singleton, Nat.add_right_cancel_iff]
      exact (and_iff_left hroom).symm
    · next hroom =>
      rw [List.length_nil, add_zero]
      exact iff_of_false (by omega) fun h ↦ hroom h.2

/-- Nothing is sent into a full send queue. -/
theorem length_turns_of_full {count : ℕ} (h : AllPosted schedule count)
    (hfull : ¬ (turns schedule count).1.outstanding < kSQDepth) :
    (turns schedule (count + 1)).2.length = count := by
  rw [turns_succ, turn_sent, if_neg hfull, List.append_nil]
  exact (length_turns_eq_iff count).mpr h

/-- The numbers on the packets to a receiver. -/
theorem seqNums_turns {count : ℕ} (h : AllPosted schedule count) (thread : Fin threads) :
    ((turns schedule count).2.filter fun packet ↦
        packet.receiverThread = thread.val).map Packet.seqNum =
      (List.range (taken schedule thread count)).map (· % 2 ^ 64) := by
  induction count with
  | zero => rfl
  | succ count ih =>
    obtain ⟨hbefore, hroom⟩ := allPosted_succ.mp h
    rw [turns_succ, turn_sent, if_pos hroom, List.filter_append, List.map_append, ih hbefore,
      taken_succ]
    by_cases htarget : (schedule count).target = thread
    · have hseq := seqNum_turns schedule thread count
      rw [if_pos htarget, List.range_succ, List.map_append]
      simp [Sender.packetFor, htarget, hseq]
    · have hval : (schedule count).target.val ≠ thread.val := fun heq ↦ htarget (Fin.ext heq)
      simp [Sender.packetFor, htarget, hval]

theorem faithful_turns_iff (count : ℕ) :
    Faithful (turns schedule count) ↔
      (∀ thread : Fin threads,
        ((turns schedule count).2.filter fun packet ↦
            packet.receiverThread = thread.val).map Packet.seqNum =
          List.range ((turns schedule count).1.seqNum thread)) ∧
      count % 2 ^ 64 = (turns schedule count).2.length := by
  rw [Faithful, turns_location, nbTx_turns]
  exact or_iff_right (by decide)

theorem faithful_of_allPosted {count : ℕ} (h : AllPosted schedule count)
    (hcount : count < 2 ^ 64) : Faithful (turns schedule count) := by
  rw [faithful_turns_iff, (length_turns_eq_iff count).mpr h]
  refine ⟨fun thread ↦ ?_, Nat.mod_eq_of_lt hcount⟩
  have htaken : taken schedule thread count < 2 ^ 64 :=
    Nat.lt_of_le_of_lt (taken_le schedule thread count) hcount
  rw [seqNums_turns h, seqNum_turns, Nat.mod_eq_of_lt htaken]
  calc
    (List.range (taken schedule thread count)).map (· % 2 ^ 64)
        = (List.range (taken schedule thread count)).map id :=
          List.map_congr_left fun number hnumber ↦
            Nat.mod_eq_of_lt ((List.mem_range.mp hnumber).trans htaken)
    _ = List.range (taken schedule thread count) := List.map_id _

/-- The first post always succeeds. -/
theorem length_turns_pos {count : ℕ} (h : 0 < count) :
    0 < (turns schedule count).2.length := by
  induction count, h using Nat.le_induction with
  | base => exact Nat.one_pos
  | succ count _ ih =>
    rw [turns_succ, List.length_append]
    exact Nat.add_pos_left ih _

/-- The numbers that the sender takes all go out, after each of the first turns, if and only if
these are fewer than the counters can count and fewer than `kSQDepth` polls before the last turn
found no completion. -/
theorem faithful_iff (schedule : ℕ → Turn threads) (count : ℕ) :
    (∀ i ≤ count, Faithful (turns schedule i)) ↔
      count < 2 ^ 64 ∧ emptyPolls schedule (count - 1) < kSQDepth := by
  rw [← allPosted_iff]
  constructor
  · intro hfaithful
    have hcount : count < 2 ^ 64 := by
      by_contra hlarge
      -- the turn that makes `nb_tx` wrap
      have hwrapped := ((faithful_turns_iff _).mp (hfaithful (2 ^ 64) (not_lt.mp hlarge))).2
      rw [Nat.mod_self] at hwrapped
      exact absurd hwrapped (ne_of_lt (length_turns_pos (Nat.two_pow_pos 64)))
    refine ⟨hcount, ?_⟩
    have hlength := ((faithful_turns_iff _).mp (hfaithful count le_rfl)).2
    rw [Nat.mod_eq_of_lt hcount] at hlength
    exact (length_turns_eq_iff count).mp hlength.symm
  · rintro ⟨hcount, hposted⟩ i hi
    exact faithful_of_allPosted (fun j hj ↦ hposted j (Nat.lt_of_lt_of_le hj hi))
      (Nat.lt_of_le_of_lt hi hcount)

/-- One receiver, and no poll finds a completion. -/
def noCompletions : ℕ → Turn 1 := fun _ ↦ ⟨0, .noMemory, false⟩

theorem emptyPolls_noCompletions (count : ℕ) : emptyPolls noCompletions count = count := by
  induction count with
  | zero => rfl
  | succ count ih =>
    rw [emptyPolls_succ, ih]
    rfl

theorem taken_noCompletions (count : ℕ) : taken noCompletions 0 count = count := by
  induction count with
  | zero => rfl
  | succ count ih =>
    rw [taken_succ, ih]
    rfl

/-- The post of turn 513 fails. The program goes on, with a number taken and a packet counted that
were never sent. -/
theorem noCompletions_loses_packet :
    (turns noCompletions 513).1.location = .filling ∧
      (turns noCompletions 513).1.nbTx = 513 ∧
      (turns noCompletions 513).1.seqNum 0 = 513 ∧
      (turns noCompletions 513).2.length = 512 ∧
      ¬ Faithful (turns noCompletions 513) := by
  have hposted : AllPosted noCompletions 512 := by
    rw [allPosted_iff, emptyPolls_noCompletions]
    decide
  have hfull : ¬ (turns noCompletions 512).1.outstanding < kSQDepth := by
    rw [outstanding_turns hposted, emptyPolls_noCompletions]
    exact lt_irrefl 512
  have hlength : (turns noCompletions 513).2.length = 512 := length_turns_of_full hposted hfull
  have hnbTx : (turns noCompletions 513).1.nbTx = 513 := nbTx_turns 513
  have hseqNum : (turns noCompletions 513).1.seqNum 0 = 513 := by
    rw [seqNum_turns, taken_noCompletions]
    exact Nat.mod_eq_of_lt (by decide)
  refine ⟨turns_location _ _, hnbTx, hseqNum, hlength, fun hfaithful ↦ ?_⟩
  have hcounted := ((faithful_turns_iff 513).mp hfaithful).2
  rw [hlength] at hcounted
  exact absurd hcounted (by decide)

end Systemish.RawEth
