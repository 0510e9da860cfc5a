import Systemish.Hyperscan.FindAllPcre

/-!
# How many matches `bench` counts

A scan finds matches one after the other. The scan from left to right restarts where the last match
ended; the loop of `bench.cc` restarts one character behind. It misses a match that begins right
where the last one ended, and it does not come to an end once a match ends with the subject.
-/

namespace Systemish.Hyperscan

/-- The matches that are found from an offset on, if each search restarts where `next` says. -/
inductive Scan (find : ℤ → Option (ℤ × ℤ)) (next : ℤ × ℤ → ℤ) : ℤ → List (ℤ × ℤ) → Prop
  | done {offset : ℤ} (hfind : find offset = none) : Scan find next offset []
  | found {offset : ℤ} {bounds : ℤ × ℤ} {hits : List (ℤ × ℤ)} (hfind : find offset = some bounds)
      (hrest : Scan find next (next bounds) hits) : Scan find next offset (bounds :: hits)

theorem Scan.unique {find : ℤ → Option (ℤ × ℤ)} {next : ℤ × ℤ → ℤ} {offset : ℤ}
    {hits hits' : List (ℤ × ℤ)} (h : Scan find next offset hits)
    (h' : Scan find next offset hits') : hits = hits' := by
  induction h generalizing hits' with
  | done hnone =>
    cases h' with
    | done => rfl
    | found hfind => exact absurd (hnone.symm.trans hfind) (Option.some_ne_none _).symm
  | found hfind _ ih =>
    cases h' with
    | done hnone => exact absurd (hnone.symm.trans hfind) (Option.some_ne_none _).symm
    | found hfind' hrest' =>
      obtain rfl := Option.some.inj (hfind.symm.trans hfind')
      rw [ih hrest']

/-- One character behind a match. -/
def behind (bounds : ℤ × ℤ) : ℤ := bounds.2 + 1

namespace Search

variable (search : Search)

/-- The ways in which a loop can end, with what `offset_vec` held after each round before the last
one. -/
inductive Ends (round : FindAll → PcreExec → Round) : FindAll → List (ℤ × ℤ) → Round → Prop
  | last {state : FindAll} (exec : PcreExec) (hanswers : search.Answers state exec)
      (hlast : ∀ after, round state exec ≠ .again after) : Ends round state [] (round state exec)
  | next {state after : FindAll} {found : List (ℤ × ℤ)} {outcome : Round}
      (hcontinues : search.Continues round after state) (h : Ends round after found outcome) :
      Ends round state (after.offsetVec :: found) outcome

/-- The loop of `bench.cc` terminates and adds `count` to `match_count`. -/
def Adds (count : ℕ) : Prop :=
  search.Terminates Bench.round ∧ ∀ offsetVec matchCount found outcome,
    search.Ends Bench.round ⟨0, offsetVec, matchCount⟩ found outcome →
      ∃ final, outcome = .returned final ∧ final.matchCount = matchCount + count

/-- The loop of `bench.cc` terminates, and it counts these matches, one after the other. -/
def Finds (hits : List (ℤ × ℤ)) : Prop :=
  search.Terminates Bench.round ∧ ∀ offsetVec matchCount found outcome,
    search.Ends Bench.round ⟨0, offsetVec, matchCount⟩ found outcome →
      found = hits ∧
        ∃ final, outcome = .returned final ∧ final.matchCount = matchCount + hits.length

end Search

namespace Matcher

variable (matcher : Matcher)

/-- The pattern matches no empty string. -/
def Proper : Prop := ∀ start stop, matcher.matchAt start = some stop → start < stop

variable {matcher} {offset : ℤ} {bounds : ℤ × ℤ}

theorem Proper.lt_stop (h : matcher.Proper) (hfind : matcher.find offset = some bounds) :
    offset < bounds.2 := by
  obtain ⟨hmatch, hle⟩ := matcher.findFrom_eq_some hfind
  exact hle.trans_lt (h _ _ hmatch)

theorem find_succ_of_none (h : matcher.find offset = none) : matcher.find (offset + 1) = none := by
  rw [find_eq] at h
  split at h
  · exact absurd h (Option.some_ne_none _)
  · exact h

theorem find_succ_of_lt (h : matcher.find offset = some bounds) (hlt : offset < bounds.1) :
    matcher.find (offset + 1) = some bounds := by
  rw [find_eq] at h
  split at h
  · rw [Option.some.injEq] at h
    rw [← h] at hlt
    exact absurd hlt (lt_irrefl _)
  · exact h

/-- A scan whose searches restart further on comes to an end. -/
theorem exists_scan (next : ℤ × ℤ → ℤ)
    (hnext : ∀ offset bounds, matcher.find offset = some bounds → offset < next bounds)
    (offset : ℤ) : ∃ hits, Scan matcher.find next offset hits := by
  obtain ⟨left, hleft⟩ : ∃ left, (matcher.length + 1 - offset).toNat = left := ⟨_, rfl⟩
  induction left using Nat.strong_induction_on generalizing offset with
  | _ left ih =>
    cases hfind : matcher.find offset with
    | none => exact ⟨[], .done hfind⟩
    | some bounds =>
      obtain ⟨hlow, hle, hend⟩ := matcher.search.find_bounds offset bounds hfind
      have hlt := hnext offset bounds hfind
      have hlength : matcher.search.length = matcher.length := rfl
      obtain ⟨hits, hits_scan⟩ := ih _ (by omega) (next bounds) rfl
      exact ⟨bounds :: hits, .found hfind hits_scan⟩

end Matcher

section Loop

variable {matcher : Matcher} {offset : ℤ} {hits : List (ℤ × ℤ)}

/-- The loop searches where the scan one character behind each match does. -/
theorem Scan.of_visited (h : Scan matcher.find behind 0 hits) {offset : ℤ}
    (hvisited : matcher.search.Visited Prod.snd offset) :
    ∃ rest, Scan matcher.find behind offset rest ∧ rest ⊆ hits := by
  induction hvisited with
  | start => exact ⟨hits, h, List.Subset.refl _⟩
  | next _ hfind ih =>
    obtain ⟨rest, hscan, hsub⟩ := ih
    cases hscan with
    | done hnone => exact absurd (hnone.symm.trans hfind) (Option.some_ne_none _).symm
    | found hfind' hrest =>
      obtain rfl := Option.some.inj (hfind'.symm.trans hfind)
      exact ⟨_, hrest, fun _ hmem ↦ hsub (List.mem_cons_of_mem _ hmem)⟩

theorem Scan.lt_length (h : Scan matcher.find behind offset hits)
    (hadvances : matcher.search.Advances Prod.snd Bench.Stops)
    (hvisited : matcher.search.Visited Prod.snd offset) :
    ∀ bounds ∈ hits, bounds.2 < matcher.length := by
  induction h with
  | done => exact fun _ hmem ↦ absurd hmem List.not_mem_nil
  | found hfind _ ih =>
    exact List.forall_mem_cons.mpr ⟨hadvances.lt_length _ _ hvisited hfind,
      ih (hvisited.next hfind)⟩

theorem Bench.round_noMatch (state : FindAll) (offsetVec : ℤ × ℤ) :
    Bench.round state ⟨pcreErrorNomatch, offsetVec⟩ = .returned { state with offsetVec } := rfl

theorem Bench.round_found (state : FindAll) {ret : ℤ} (hret : 0 ≤ ret) (bounds : ℤ × ℤ) :
    Bench.round state ⟨ret, bounds⟩ =
      .again ⟨addInt bounds.2 1, bounds, state.matchCount + 1⟩ := by
  unfold Bench.round pcreErrorBadoption pcreErrorBadmagic
  rw [if_neg (by dsimp only; omega), if_neg (by dsimp only; omega)]

/-- A round at an offset of the subject, without resource errors. -/
theorem Matcher.round_cases {state : FindAll} {exec : PcreExec}
    (hoffset : matcher.search.InSubject state.curOffset)
    (hanswers : matcher.search.Answers state exec) :
    (matcher.find state.curOffset = none ∧
      Bench.round state exec = .returned { state with offsetVec := exec.offsetVec }) ∨
      ∃ bounds, matcher.find state.curOffset = some bounds ∧ Bench.round state exec =
        .again ⟨addInt bounds.2 1, bounds, state.matchCount + 1⟩ := by
  cases hanswers with
  | badoffset hout => exact absurd hoffset hout
  | noMatch offsetVec _ hfind => exact .inl ⟨hfind, Bench.round_noMatch _ _⟩
  | found ret hret bounds _ hfind => exact .inr ⟨bounds, hfind, Bench.round_found _ hret bounds⟩
  | error _ _ _ hcode => exact absurd hcode (Set.notMem_empty _)

theorem Matcher.addInt_stop {bounds : ℤ × ℤ} (hoffset : 0 ≤ offset)
    (hfind : matcher.find offset = some bounds) (hlt : bounds.2 < matcher.length) :
    addInt bounds.2 1 = behind bounds ∧ matcher.search.InSubject (behind bounds) := by
  obtain ⟨hlow, hle, -⟩ := matcher.search.find_bounds offset bounds hfind
  have hlength := matcher.length_lt
  refine ⟨addInt_one (by omega) (by omega), ?_, hlt⟩
  unfold behind
  omega

/-- However the loop ends, it has counted the matches of the scan. -/
theorem Scan.ends (h : Scan matcher.find behind offset hits)
    (hoffset : matcher.search.InSubject offset) (hlt : ∀ bounds ∈ hits, bounds.2 < matcher.length)
    {offsetVec : ℤ × ℤ} {matchCount : ℕ} {found : List (ℤ × ℤ)} {outcome : Round}
    (hends : matcher.search.Ends Bench.round ⟨offset, offsetVec, matchCount⟩ found outcome) :
    found = hits ∧
      ∃ final, outcome = .returned final ∧ final.matchCount = matchCount + hits.length := by
  induction h generalizing offsetVec matchCount found with
  | done hnone =>
    cases hends with
    | last exec hanswers hlast =>
      rcases Matcher.round_cases hoffset hanswers with ⟨_, hround⟩ | ⟨bounds, hfind, _⟩
      · exact ⟨rfl, _, hround, rfl⟩
      · exact absurd (hnone.symm.trans hfind) (Option.some_ne_none _).symm
    | next hcontinues _ =>
      obtain ⟨exec, hanswers, hagain⟩ := hcontinues
      rcases Matcher.round_cases hoffset hanswers with ⟨_, hround⟩ | ⟨bounds, hfind, _⟩
      · exact Round.noConfusion (hround.symm.trans hagain)
      · exact absurd (hnone.symm.trans hfind) (Option.some_ne_none _).symm
  | @found offset bounds hits hfind _ ih =>
    rw [List.forall_mem_cons] at hlt
    obtain ⟨hnext, hinside⟩ := Matcher.addInt_stop hoffset.1 hfind hlt.1
    have hround {exec : PcreExec}
        (hanswers : matcher.search.Answers ⟨offset, offsetVec, matchCount⟩ exec) :
        Bench.round ⟨offset, offsetVec, matchCount⟩ exec =
          .again ⟨behind bounds, bounds, matchCount + 1⟩ := by
      rcases Matcher.round_cases hoffset hanswers with ⟨hnone, _⟩ | ⟨bounds', hfind', hround⟩
      · exact absurd (hnone.symm.trans hfind) (Option.some_ne_none _).symm
      · obtain rfl := Option.some.inj (hfind.symm.trans hfind')
        rw [hround, hnext]
    cases hends with
    | last exec hanswers hlast => exact absurd (hround hanswers) (hlast _)
    | next hcontinues hrest =>
      obtain ⟨exec, hanswers, hagain⟩ := hcontinues
      obtain rfl := Round.again.inj (hagain.symm.trans (hround hanswers))
      obtain ⟨rfl, final, houtcome, hcount⟩ := ih hinside hlt.2 hrest
      refine ⟨rfl, final, houtcome, ?_⟩
      rw [hcount, List.length_cons]
      omega

/-- The loop does end. -/
theorem Scan.exists_ends (h : Scan matcher.find behind offset hits)
    (hoffset : matcher.search.InSubject offset) (hlt : ∀ bounds ∈ hits, bounds.2 < matcher.length)
    (offsetVec : ℤ × ℤ) (matchCount : ℕ) :
    ∃ found outcome,
      matcher.search.Ends Bench.round ⟨offset, offsetVec, matchCount⟩ found outcome := by
  induction h generalizing offsetVec matchCount with
  | done hnone =>
    refine ⟨[], _, .last ⟨pcreErrorNomatch, offsetVec⟩ (.noMatch offsetVec hoffset hnone) ?_⟩
    rw [Bench.round_noMatch]
    exact fun _ ↦ Round.noConfusion
  | @found offset bounds hits hfind _ ih =>
    rw [List.forall_mem_cons] at hlt
    obtain ⟨hnext, hinside⟩ := Matcher.addInt_stop hoffset.1 hfind hlt.1
    obtain ⟨found, outcome, hends⟩ := ih hinside hlt.2 bounds (matchCount + 1)
    refine ⟨_, outcome, .next ⟨⟨0, bounds⟩, .found 0 le_rfl bounds hoffset hfind, ?_⟩ hends⟩
    rw [Bench.round_found _ le_rfl, hnext]

/-- The loop terminates exactly if no match of the scan ends with the subject. -/
theorem Scan.terminates_iff (h : Scan matcher.find behind 0 hits) :
    matcher.search.Terminates Bench.round ↔
      0 ≤ matcher.length ∧ ∀ bounds ∈ hits, bounds.2 < matcher.length := by
  rw [terminates_iff_advances Bench.steps]
  constructor
  · exact fun hadvances ↦ ⟨hadvances.nonneg, h.lt_length hadvances .start⟩
  · rintro ⟨hnonneg, hlt⟩
    refine ⟨hnonneg, fun _ _ _ hcode ↦ absurd hcode (Set.notMem_empty _), ?_⟩
    intro offset bounds hvisited hfind
    obtain ⟨rest, hrest, hsub⟩ := h.of_visited hvisited
    cases hrest with
    | done hnone => exact absurd (hnone.symm.trans hfind) (Option.some_ne_none _).symm
    | found hfind' _ =>
      obtain rfl := Option.some.inj (hfind'.symm.trans hfind)
      exact hlt _ (hsub List.mem_cons_self)

/-- What the loop adds to `match_count`, if it comes to an end. -/
theorem Scan.adds_iff (h : Scan matcher.find behind 0 hits) (count : ℕ) :
    matcher.search.Adds count ↔ 0 ≤ matcher.length ∧
      (∀ bounds ∈ hits, bounds.2 < matcher.length) ∧ count = hits.length := by
  rw [Search.Adds, h.terminates_iff, and_assoc]
  refine and_congr_right fun hnonneg ↦ and_congr_right fun hlt ↦ ?_
  have hstart : matcher.search.InSubject 0 := ⟨le_rfl, hnonneg⟩
  constructor
  · intro hadds
    obtain ⟨found, outcome, hends⟩ := h.exists_ends hstart hlt (0, 0) 0
    obtain ⟨final, rfl, hcount⟩ := hadds _ _ _ _ hends
    obtain ⟨-, final', houtcome, hcount'⟩ := h.ends hstart hlt hends
    rw [Round.returned.injEq] at houtcome
    rw [← houtcome, hcount] at hcount'
    exact Nat.add_left_cancel hcount'
  · rintro rfl
    exact fun _ _ _ _ hends ↦ (h.ends hstart hlt hends).2

/-- What the loop counts, if it comes to an end. -/
theorem Scan.finds_iff (h : Scan matcher.find behind 0 hits) (hits' : List (ℤ × ℤ)) :
    matcher.search.Finds hits' ↔ 0 ≤ matcher.length ∧
      (∀ bounds ∈ hits, bounds.2 < matcher.length) ∧ hits' = hits := by
  rw [Search.Finds, h.terminates_iff, and_assoc]
  refine and_congr_right fun hnonneg ↦ and_congr_right fun hlt ↦ ?_
  have hstart : matcher.search.InSubject 0 := ⟨le_rfl, hnonneg⟩
  constructor
  · intro hfinds
    obtain ⟨found, outcome, hends⟩ := h.exists_ends hstart hlt (0, 0) 0
    exact (hfinds _ _ _ _ hends).1.symm.trans (h.ends hstart hlt hends).1
  · rintro rfl
    exact fun _ _ _ _ hends ↦ h.ends hstart hlt hends

end Loop

/-! ## Adjacent matches -/

section Adjacent

variable {matcher : Matcher} {offset : ℤ} {hits : List (ℤ × ℤ)}

theorem Scan.isChain (h : Scan matcher.find behind offset hits) :
    hits.IsChain fun one other ↦ one.2 < other.1 := by
  induction h with
  | done => exact .nil
  | found _ hrest ih =>
    cases hrest with
    | done => exact .singleton _
    | found hfind _ =>
      have hlow := (matcher.search.find_bounds _ _ hfind).1
      exact .cons_cons (Int.lt_of_add_one_le hlow) ih

/-- If no two matches touch, nothing is missed one character behind. -/
theorem Scan.behind_of_isChain (h : Scan matcher.find Prod.snd offset hits)
    (hchain : hits.IsChain fun one other ↦ one.2 < other.1) :
    Scan matcher.find behind offset hits := by
  induction h with
  | done hnone => exact .done hnone
  | found hfind hrest ih =>
    refine .found hfind ?_
    have hbehind := ih hchain.tail
    cases hbehind with
    | done hnone => exact .done (Matcher.find_succ_of_none hnone)
    | found hfind' hrest' =>
      rw [List.isChain_cons_cons] at hchain
      exact .found (Matcher.find_succ_of_lt hfind' hchain.1) hrest'

end Adjacent

/-- For every pattern that matches no empty string and every subject, the scan from left to right
comes to an end. If no two of its matches touch, `bench.cc` adds their number exactly if none of
them ends with the subject. What `bench.cc` counts are these matches exactly if, moreover, no two of
them touch. -/
theorem findAllPcre_counts_iff (matcher : Matcher) (hproper : matcher.Proper) :
    ∃ hits, Scan matcher.find Prod.snd 0 hits ∧
      (hits.IsChain (fun one other ↦ one.2 < other.1) →
        (matcher.search.Adds hits.length ↔
          0 ≤ matcher.length ∧ ∀ bounds ∈ hits, bounds.2 < matcher.length)) ∧
      (matcher.search.Finds hits ↔
        hits.IsChain (fun one other ↦ one.2 < other.1) ∧
          0 ≤ matcher.length ∧ ∀ bounds ∈ hits, bounds.2 < matcher.length) := by
  have hlt (offset : ℤ) (bounds : ℤ × ℤ) (hfind : matcher.find offset = some bounds) :
      offset < behind bounds := Int.lt_add_one_of_le (hproper.lt_stop hfind).le
  obtain ⟨hits, hscan⟩ := matcher.exists_scan Prod.snd (fun _ _ ↦ hproper.lt_stop) 0
  obtain ⟨spaced, hspaced⟩ := matcher.exists_scan behind hlt 0
  refine ⟨hits, hscan, fun hchain ↦ ?_, ?_⟩
  · rw [(hscan.behind_of_isChain hchain).adds_iff, eq_self_iff_true, and_true]
  · rw [hspaced.finds_iff]
    constructor
    · rintro ⟨hnonneg, hend, rfl⟩
      exact ⟨hspaced.isChain, hnonneg, hend⟩
    · rintro ⟨hchain, hnonneg, hend⟩
      obtain rfl := hspaced.unique (hscan.behind_of_isChain hchain)
      exact ⟨hnonneg, hend, rfl⟩

theorem Matcher.literal_proper {pattern subject : List Char} (hpattern : pattern ≠ [])
    (h : subject.length < 2 ^ 31) : (Matcher.literal pattern subject h).Proper := by
  intro start stop hmatch
  obtain ⟨_, hstop⟩ := Option.ite_none_right_eq_some.mp hmatch
  rw [Option.some.injEq] at hstop
  have hlength := List.length_pos_iff.mpr hpattern
  omega

/-- The pattern `ab` is found twice in `xabxxabx`, and counted twice. -/
theorem findAllPcre_counts_two :
    (Matcher.literal ['a', 'b'] "xabxxabx".toList (by decide)).search.Adds 2 ∧
      (Matcher.literal ['a', 'b'] "xabxxabx".toList (by decide)).search.Finds
        [(1, 3), (5, 7)] := by
  have hscan : Scan (Matcher.literal ['a', 'b'] "xabxxabx".toList (by decide)).find Prod.snd 0
      [(1, 3), (5, 7)] := .found (by decide) (.found (by decide) (.done (by decide)))
  have hproper := Matcher.literal_proper (List.cons_ne_nil 'a' ['b'])
    (show "xabxxabx".toList.length < 2 ^ 31 by decide)
  obtain ⟨hits, hhits, hadds, hfinds⟩ := findAllPcre_counts_iff _ hproper
  obtain rfl := hscan.unique hhits
  exact ⟨(hadds (by decide)).mpr ⟨by decide, by decide⟩,
    hfinds.mpr ⟨by decide, by decide, by decide⟩⟩

/-- The pattern `ab` is found twice in `abab`, but counted once: the second match begins where the
first one ends. -/
theorem findAllPcre_misses_adjacent :
    Scan (Matcher.literal ['a', 'b'] "abab".toList (by decide)).find Prod.snd 0 [(0, 2), (2, 4)] ∧
      (Matcher.literal ['a', 'b'] "abab".toList (by decide)).search.Adds 1 ∧
      ¬ (Matcher.literal ['a', 'b'] "abab".toList (by decide)).search.Adds 2 := by
  have hspaced : Scan (Matcher.literal ['a', 'b'] "abab".toList (by decide)).find behind 0
      [(0, 2)] := .found (by decide) (.done (by decide))
  refine ⟨.found (by decide) (.found (by decide) (.done (by decide))), ?_, ?_⟩
  · exact (hspaced.adds_iff 1).mpr ⟨by decide, by decide, rfl⟩
  · intro hadds
    exact absurd ((hspaced.adds_iff 2).mp hadds).2.2 (by decide)

end Systemish.Hyperscan
