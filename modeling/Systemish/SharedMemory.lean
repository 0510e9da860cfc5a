import Mathlib

/-!
# A shared memory segment with a slice for each client

The server goes round the clients for ever and writes one record into the slice of each. A client
goes round its own slice and adds up what it reads. Both find the place in a slice as the C
remainder of a counter of type `int`, which wraps around on the target and is negative afterwards.
-/

namespace Systemish.SharedMemory

def capacity : ℤ := 1024

abbrev numClients : ℕ := 4

def perClientCap : ℤ := capacity.tdiv numClients

/-- A record of the segment. -/
structure KV where
  key : ℤ
  value : ℤ
  reqNum : ℤ
  location : ℤ
  deriving DecidableEq, Repr

/-- `count++` for an `int`. -/
def increment (count : ℤ) : ℤ := Int.bmod (count + 1) (2 ^ 32)

/-- The place of a counter in the slice that begins at `shmLo`. -/
def placeOf (shmLo count : ℤ) : ℤ := shmLo + count.tmod perClientCap

/-! ## The server -/

/-- The stores of the server into the fields of one record. -/
structure Write where
  client : Fin numClients
  index : ℤ
  record : KV
  deriving DecidableEq, Repr

/-- The locals of the server and what it has written in its loop. -/
structure Server where
  iter : ℤ
  shmCnt : Fin numClients → ℤ
  shmLo : Fin numClients → ℤ
  writes : List Write

/-- Before the loop. -/
def Server.start : Server where
  iter := 0
  shmCnt := fun _ ↦ 0
  shmLo := fun i ↦ i * perClientCap
  writes := []

/-- The body of the inner loop. -/
def Server.serve (server : Server) (i : Fin numClients) : Server :=
  let index := placeOf (server.shmLo i) (server.shmCnt i)
  { server with
    shmCnt := Function.update server.shmCnt i (increment (server.shmCnt i))
    writes := server.writes ++
      [⟨i, index, ⟨server.iter, server.iter, server.iter, server.iter⟩⟩] }

/-- The body of the outer loop. -/
def Server.iterate (server : Server) : Server :=
  let served := (List.finRange numClients).foldl serve server
  { served with iter := increment served.iter }

/-- The server after `n` iterations. -/
def Server.run (n : ℕ) : Server := iterate^[n] start

/-! ## A client -/

/-- The locals of a client and the indices that it has read. -/
structure Client where
  shmLo : ℤ
  i : ℤ
  sum : ℤ
  reads : List ℤ

/-- Before the loop of the client with this id. -/
def Client.start (id : Fin numClients) : Client where
  shmLo := id * perClientCap
  i := 0
  sum := 0
  reads := []

/-- An addition to a `long long`. -/
def addLong (sum value : ℤ) : ℤ := Int.bmod (sum + value) (2 ^ 64)

/-- The body of the loop. `record` is what the loads find. -/
def Client.read (client : Client) (record : KV) : Client :=
  let index := placeOf client.shmLo client.i
  { client with
    i := increment client.i
    sum := addLong (addLong (addLong (addLong client.sum record.key) record.value)
      record.location) record.reqNum
    reads := client.reads ++ [index] }

/-- The client after one iteration for each record that its loads have found. -/
def Client.run (id : Fin numClients) (records : List KV) : Client :=
  records.foldl read (start id)

/-! ## What the loops have done -/

/-- An `int` counter after `n` increments. -/
def counter (n : ℕ) : ℤ := Int.bmod n (2 ^ 32)

theorem increment_counter (n : ℕ) : increment (counter n) = counter (n + 1) := by
  unfold increment counter
  rw [Int.bmod_add_bmod, Nat.cast_add, Nat.cast_one]

/-- The place of iteration number `n`, counted from zero. -/
def place (i : Fin numClients) (n : ℕ) : ℤ := placeOf (i * perClientCap) (counter n)

/-- The writes of iteration number `n`. -/
def writesAt (n : ℕ) : List Write :=
  (List.finRange numClients).map fun i ↦
    ⟨i, place i n, ⟨counter n, counter n, counter n, counter n⟩⟩

/-- The inner loop over distinct clients serves each of them once. -/
theorem Server.foldl_serve {clients : List (Fin numClients)} (hnodup : clients.Nodup)
    (server : Server) :
    clients.foldl serve server =
      { server with
        shmCnt := fun i ↦
          if i ∈ clients then increment (server.shmCnt i) else server.shmCnt i
        writes := server.writes ++ clients.map fun i ↦
          ⟨i, placeOf (server.shmLo i) (server.shmCnt i),
            ⟨server.iter, server.iter, server.iter, server.iter⟩⟩ } := by
  induction clients generalizing server with
  | nil => simp
  | cons client clients ih =>
    obtain ⟨hnew, hnodup⟩ := List.nodup_cons.mp hnodup
    rw [List.foldl_cons, ih hnodup, serve]
    dsimp only
    congr 1
    · funext i
      rcases eq_or_ne i client with rfl | hne
      · simp [hnew]
      · simp [hne]
    · rw [List.append_assoc, List.singleton_append, List.map_cons]
      congr 2
      refine List.map_congr_left fun i hi ↦ ?_
      have hne : i ≠ client := fun h ↦ hnew (h ▸ hi)
      rw [Function.update_of_ne hne]

/-- All counters of the server are equal between two iterations. -/
theorem Server.run_eq (n : ℕ) :
    run n =
      { iter := counter n
        shmCnt := fun _ ↦ counter n
        shmLo := fun i ↦ i * perClientCap
        writes := (List.range n).flatMap writesAt } := by
  induction n with
  | zero => rfl
  | succ n ih =>
    rw [run, Function.iterate_succ_apply', ← run, ih, iterate,
      foldl_serve (List.nodup_finRange numClients), List.range_succ, List.flatMap_append,
      List.flatMap_singleton, writesAt]
    simp only [List.mem_finRange, if_true, increment_counter, place]

theorem Client.run_eq (id : Fin numClients) (records : List KV) :
    (run id records).shmLo = id * perClientCap ∧
      (run id records).i = counter records.length ∧
      (run id records).reads = (List.range records.length).map (place id) := by
  induction records using List.reverseRecOn with
  | nil => exact ⟨rfl, rfl, rfl⟩
  | append_singleton records record ih =>
    obtain ⟨hlo, hi, hreads⟩ := ih
    rw [run, List.foldl_append, ← run, List.length_append, List.foldl_cons, List.foldl_nil,
      List.length_singleton, List.range_succ, List.map_append, List.map_singleton]
    refine ⟨hlo, ?_, ?_⟩
    · rw [read, hi, increment_counter]
    · rw [read, hlo, hi, hreads]
      rfl

/-! ## Slices -/

/-- The index lies in the slice of client `i`. -/
def InSlice (i : Fin numClients) (index : ℤ) : Prop :=
  i * perClientCap ≤ index ∧ index < (i + 1) * perClientCap

instance (i : Fin numClients) (index : ℤ) : Decidable (InSlice i index) :=
  inferInstanceAs (Decidable (_ ∧ _))

theorem perClientCap_eq : perClientCap = 256 := rfl

theorem InSlice.inSegment {i : Fin numClients} {index : ℤ} (h : InSlice i index) :
    0 ≤ index ∧ index < capacity := by
  have hi : (i : ℕ) < 4 := i.isLt
  rw [InSlice, perClientCap_eq] at h
  rw [capacity]
  omega

/-- Slices are disjoint. -/
theorem InSlice.eq {i other : Fin numClients} {index : ℤ} (h : InSlice i index)
    (hother : InSlice other index) : other = i := by
  rw [InSlice, perClientCap_eq] at h hother
  apply Fin.ext
  omega

/-- The place is in the slice as long as the counter is not negative, and where it is a multiple of
the size of a slice. -/
theorem inSlice_place_iff (i : Fin numClients) (n : ℕ) :
    InSlice i (place i n) ↔ 0 ≤ counter n ∨ 256 ∣ counter n := by
  have hslice : InSlice i (place i n) ↔
      0 ≤ (counter n).tmod perClientCap ∧ (counter n).tmod perClientCap < perClientCap := by
    rw [InSlice, place, placeOf, perClientCap_eq]
    omega
  rw [hslice, perClientCap_eq]
  have hlt := Int.tmod_lt_of_pos (counter n) (b := 256) (by decide)
  rcases le_or_gt 0 (counter n) with hnonneg | hneg
  · exact iff_of_true ⟨Int.tmod_nonneg 256 hnonneg, hlt⟩ (.inl hnonneg)
  · have hle : (counter n).tmod 256 ≤ 0 := by
      have hneg' := Int.tmod_nonneg 256 (neg_nonneg.mpr hneg.le)
      rw [Int.neg_tmod] at hneg'
      omega
    rw [Int.dvd_iff_tmod_eq_zero]
    omega

/-- The first iterations go round the slice. -/
theorem place_eq (i : Fin numClients) {n : ℕ} (h : n ≤ 2 ^ 31) :
    place i n = i * perClientCap + n % perClientCap := by
  rcases h.eq_or_lt with rfl | hlt
  · rfl
  · have hcounter : counter n = n := by
      apply Int.bmod_eq_of_le <;> omega
    rw [place, placeOf, hcounter, Int.tmod_eq_emod_of_nonneg (Int.natCast_nonneg n)]

theorem inSlice_place {i : Fin numClients} {n : ℕ} (h : n ≤ 2 ^ 31) : InSlice i (place i n) := by
  rw [place_eq i h, InSlice, perClientCap_eq]
  omega

/-- The counter is `-2 ^ 31 + 1` then. -/
theorem not_inSlice_place (i : Fin numClients) : ¬ InSlice i (place i (2 ^ 31 + 1)) := by
  rw [inSlice_place_iff]
  decide

/-- All of the first `n` iterations stay in the slice exactly if the counter did not go far beyond
its largest value. -/
theorem forall_inSlice_place_iff (i : Fin numClients) (n : ℕ) :
    (∀ index ∈ (List.range n).map (place i), InSlice i index) ↔ n ≤ 2 ^ 31 + 1 := by
  rw [List.forall_mem_map]
  constructor
  · intro h
    by_contra hlt
    exact not_inSlice_place i (h _ (List.mem_range.mpr (by omega)))
  · intro hle m hm
    exact inSlice_place (by have := List.mem_range.mp hm; omega)

/-! ## What the slices are for -/

/-- The indices written for client `i`, in order. -/
def Server.writesFor (server : Server) (i : Fin numClients) : List ℤ :=
  (server.writes.filter (·.client = i)).map (·.index)

theorem filter_writesAt (i : Fin numClients) (n : ℕ) :
    ((writesAt n).filter (·.client = i)).map (·.index) = [place i n] := by
  fin_cases i <;> rfl

theorem Server.writesFor_run (n : ℕ) (i : Fin numClients) :
    (run n).writesFor i = (List.range n).map (place i) := by
  rw [writesFor, run_eq, List.filter_flatMap, List.map_flatMap]
  simp only [filter_writesAt]
  rw [List.map_eq_flatMap]

/-- The server stays in the slice of client `i` and goes round it. -/
structure Server.GoesRound (server : Server) (i : Fin numClients) : Prop where
  inSlice : ∀ index ∈ server.writesFor i, InSlice i index
  cyclic : (server.writesFor i).IsChain fun index next ↦
    next = i * perClientCap + (index - i * perClientCap + 1) % perClientCap

theorem Server.mem_writes_run {n m : ℕ} (hlt : m < n) (i : Fin numClients) :
    ∃ write ∈ (run n).writes, write.client = i ∧ write.index = place i m := by
  have hmem : ⟨i, place i m, ⟨counter m, counter m, counter m, counter m⟩⟩ ∈ writesAt m :=
    List.mem_map.mpr ⟨i, List.mem_finRange i, rfl⟩
  rw [run_eq]
  exact ⟨_, List.mem_flatMap.mpr ⟨m, List.mem_range.mpr hlt, hmem⟩, rfl, rfl⟩

/-- The server touches nothing outside of the segment and no slot of another client. -/
def Server.Confined (server : Server) : Prop :=
  ∀ write ∈ server.writes, (0 ≤ write.index ∧ write.index < capacity) ∧
    ∀ other, other ≠ write.client → ¬ InSlice other write.index

theorem Server.goesRound_run_iff (n : ℕ) (i : Fin numClients) :
    (run n).GoesRound i ↔ n ≤ 2 ^ 31 + 1 := by
  constructor
  · intro h
    rw [← forall_inSlice_place_iff i n, ← writesFor_run]
    exact h.inSlice
  · intro hle
    constructor
    · rw [writesFor_run, forall_inSlice_place_iff]
      exact hle
    · rw [writesFor_run, List.isChain_map, List.isChain_range]
      intro m hm
      rw [place_eq i (by omega), place_eq i (by omega), perClientCap_eq]
      omega

theorem Server.confined_run {n : ℕ} (hle : n ≤ 2 ^ 31 + 1) : (run n).Confined := by
  intro write hwrite
  have hslice : InSlice write.client write.index := by
    apply ((goesRound_run_iff n write.client).mpr hle).inSlice
    exact List.mem_map.mpr ⟨write, List.mem_filter.mpr ⟨hwrite, decide_eq_true rfl⟩, rfl⟩
  exact ⟨hslice.inSegment, fun other hne hother ↦ hne (hslice.eq hother)⟩

/-- The slices do what they are for exactly as long as neither the server nor the client has made
more than `2 ^ 31 + 1` iterations. -/
theorem slices_respected_iff (n : ℕ) (i : Fin numClients) (records : List KV) :
    ((Server.run n).GoesRound i ∧ (Server.run n).Confined ∧
        ∀ index ∈ (Client.run i records).reads, InSlice i index) ↔
      n ≤ 2 ^ 31 + 1 ∧ records.length ≤ 2 ^ 31 + 1 := by
  rw [Server.goesRound_run_iff, (Client.run_eq i records).2.2, forall_inSlice_place_iff]
  constructor
  · rintro ⟨hserver, -, hclient⟩
    exact ⟨hserver, hclient⟩
  · rintro ⟨hserver, hclient⟩
    exact ⟨hserver, Server.confined_run hserver, hclient⟩

/-- Iteration number `2 ^ 31 + 1` writes in front of the segment for the first client, and into the
slice of the first client for the second one. -/
theorem server_leaves_segment :
    (∃ write ∈ (Server.run (2 ^ 31 + 2)).writes, write.client = 0 ∧ write.index = -255) ∧
      (∃ write ∈ (Server.run (2 ^ 31 + 2)).writes, write.client = 1 ∧ InSlice 0 write.index) ∧
      ¬ (Server.run (2 ^ 31 + 2)).GoesRound 0 ∧ ¬ (Server.run (2 ^ 31 + 2)).Confined := by
  have hlt : 2 ^ 31 + 1 < 2 ^ 31 + 2 := by decide
  obtain ⟨first, hfirst, hclient, hindex⟩ := Server.mem_writes_run hlt 0
  obtain ⟨second, hsecond, hclient', hindex'⟩ := Server.mem_writes_run hlt 1
  have hplace : place 0 (2 ^ 31 + 1) = -255 := by decide
  refine ⟨⟨first, hfirst, hclient, hindex.trans hplace⟩, ⟨second, hsecond, hclient', ?_⟩, ?_, ?_⟩
  · rw [hindex']
    decide
  · rw [Server.goesRound_run_iff]
    decide
  · intro hconfined
    have hnonneg := (hconfined first hfirst).1.1
    rw [hindex, hplace] at hnonneg
    exact absurd hnonneg (by decide)

end Systemish.SharedMemory
