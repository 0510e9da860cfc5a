import Mathlib

/-!
# The search loops around `pcre_exec`

`find_all_pcre` of `vs_pcre/bench.cc` and of `vs_pcre/pcre_test.cc`. Each round of a loop is told
what `pcre_exec` answered: its return value and what `offset_vec` holds afterwards. A `Search` is
what the documentation of `pcre_exec` promises for one pattern and one subject. The loops stop on
some return values only, and compute the next offset from `offset_vec` whether or not it was set.
-/

namespace Systemish.Hyperscan

def pcreErrorNomatch : ℤ := -1
def pcreErrorBadoption : ℤ := -3
def pcreErrorBadmagic : ℤ := -4
def pcreErrorBadoffset : ℤ := -24

/-- One call of `pcre_exec`: its return value, and the first two entries of `offset_vec` after
it. -/
structure PcreExec where
  ret : ℤ
  offsetVec : ℤ × ℤ

/-- The variables of `find_all_pcre`, at the head of its loop. -/
structure FindAll where
  curOffset : ℤ
  offsetVec : ℤ × ℤ
  matchCount : ℕ

/-- What one round of the loop leads to. -/
inductive Round where
  | again (state : FindAll)
  | returned (state : FindAll)
  | exited

/-- An addition to an `int`. -/
def addInt (value other : ℤ) : ℤ := Int.bmod (value + other) (2 ^ 32)

namespace Bench

/-- The body of the loop in `bench.cc`. -/
def round (state : FindAll) (exec : PcreExec) : Round :=
  if exec.ret = pcreErrorBadoption ∨ exec.ret = pcreErrorBadmagic then .exited
  else if exec.ret = -1 then .returned { state with offsetVec := exec.offsetVec }
  else .again ⟨addInt exec.offsetVec.2 1, exec.offsetVec, state.matchCount + 1⟩

end Bench

namespace PcreTest

/-- The body of the loop in `pcre_test.cc`, and what comes after the loop once its condition fails.
It counts nothing. -/
def round (state : FindAll) (exec : PcreExec) : Round :=
  let state := ⟨addInt exec.offsetVec.1 1, exec.offsetVec, state.matchCount⟩
  if exec.ret ≠ -1 then .again state
  else if exec.ret = pcreErrorBadoption ∨ exec.ret = pcreErrorBadmagic then .exited
  else .returned state

end PcreTest

/-- A pattern and a subject, as `pcre_exec` sees them. `length` is the `int` that `strlen` was cut
to, `find` gives the match for a start offset, and `errors` the return values of the resource errors
that may happen there. -/
structure Search where
  length : ℤ
  length_lt : length < 2 ^ 31
  find : ℤ → Option (ℤ × ℤ)
  find_bounds : ∀ offset bounds, find offset = some bounds →
    offset ≤ bounds.1 ∧ bounds.1 ≤ bounds.2 ∧ bounds.2 ≤ length
  errors : ℤ → Set ℤ
  errors_neg : ∀ offset, ∀ code ∈ errors offset, code < 0 ∧ code ≠ pcreErrorNomatch

namespace Search

variable (search : Search)

/-- A start offset that lies in the subject. -/
def InSubject (offset : ℤ) : Prop := 0 ≤ offset ∧ offset ≤ search.length

/-- What `pcre_exec` may answer. -/
inductive Answers (state : FindAll) : PcreExec → Prop
  | badoffset (h : ¬ search.InSubject state.curOffset) :
      Answers state ⟨pcreErrorBadoffset, state.offsetVec⟩
  | noMatch (offsetVec : ℤ × ℤ) (h : search.InSubject state.curOffset)
      (hfind : search.find state.curOffset = none) : Answers state ⟨pcreErrorNomatch, offsetVec⟩
  | found (ret : ℤ) (hret : 0 ≤ ret) (bounds : ℤ × ℤ) (h : search.InSubject state.curOffset)
      (hfind : search.find state.curOffset = some bounds) : Answers state ⟨ret, bounds⟩
  | error (code : ℤ) (offsetVec : ℤ × ℤ) (h : search.InSubject state.curOffset)
      (hcode : code ∈ search.errors state.curOffset) : Answers state ⟨code, offsetVec⟩

/-- The loop goes from one round to the next. -/
def Continues (round : FindAll → PcreExec → Round) (after before : FindAll) : Prop :=
  ∃ exec, search.Answers before exec ∧ round before exec = .again after

/-- No run of the loop goes on for ever, whatever `offset_vec` holds at first. -/
def Terminates (round : FindAll → PcreExec → Round) : Prop :=
  ∀ offsetVec matchCount, Acc (search.Continues round) ⟨0, offsetVec, matchCount⟩

/-- The offsets at which the loop searches, if it restarts behind the given entry of each match. -/
inductive Visited (entry : ℤ × ℤ → ℤ) : ℤ → Prop
  | start : Visited entry 0
  | next {offset : ℤ} {bounds : ℤ × ℤ} (h : Visited entry offset)
      (hfind : search.find offset = some bounds) : Visited entry (entry bounds + 1)

/-- No search of the loop starts behind the end of the subject, and no error that can happen keeps
it going. -/
structure Advances (entry : ℤ × ℤ → ℤ) (stops : ℤ → Prop) : Prop where
  nonneg : 0 ≤ search.length
  stops_errors : ∀ offset, search.Visited entry offset → ∀ code ∈ search.errors offset, stops code
  lt_length : ∀ offset bounds, search.Visited entry offset → search.find offset = some bounds →
    entry bounds < search.length

end Search

/-- What the two loops have in common: the return values on which a loop stops, and the entry of
`offset_vec` behind which it searches next. -/
structure Steps (round : FindAll → PcreExec → Round) (entry : ℤ × ℤ → ℤ) (stops : ℤ → Prop) :
    Prop where
  again : ∀ state exec, ¬ stops exec.ret → ∃ matchCount,
    round state exec = .again ⟨addInt (entry exec.offsetVec) 1, exec.offsetVec, matchCount⟩
  not_again : ∀ state exec after, stops exec.ret → round state exec ≠ .again after
  stops_nomatch : stops pcreErrorNomatch
  not_stops_badoffset : ¬ stops pcreErrorBadoffset
  not_stops_found : ∀ ret, 0 ≤ ret → ¬ stops ret
  entry_mem : ∀ bounds : ℤ × ℤ, bounds.1 ≤ bounds.2 →
    bounds.1 ≤ entry bounds ∧ entry bounds ≤ bounds.2

theorem addInt_one {value : ℤ} (hlow : -1 ≤ value) (hhigh : value < 2 ^ 31 - 1) :
    addInt value 1 = value + 1 := by
  unfold addInt
  apply Int.bmod_eq_of_le <;> omega

/-- The offset behind a subject that ends with a match is behind its end, also where the `int`
overflows. -/
theorem Search.not_inSubject_length_add_one (search : Search) (h : 0 ≤ search.length) :
    ¬ search.InSubject (addInt search.length 1) := by
  have hlength := search.length_lt
  rintro ⟨hlow, hhigh⟩
  rcases (Int.le_sub_one_of_lt hlength).lt_or_eq with hlt | heq
  · rw [addInt_one (by omega) hlt] at hhigh
    omega
  · rw [heq] at hlow
    exact absurd hlow (by decide)

/-- From states each of which can be followed by another one of them, a loop may run for ever. -/
theorem not_acc_of_forall_exists {α : Type*} {r : α → α → Prop} (states : Set α)
    (h : ∀ x ∈ states, ∃ y ∈ states, r y x) {x : α} (hx : x ∈ states) : ¬ Acc r x := by
  intro hacc
  induction hacc with
  | intro x _ ih =>
    obtain ⟨y, hy, hr⟩ := h x hx
    exact ih y hr hy

section Loop

variable {search : Search} {round : FindAll → PcreExec → Round} {entry : ℤ × ℤ → ℤ}
  {stops : ℤ → Prop} {state : FindAll}

namespace Steps

variable (hsteps : Steps round entry stops)
include hsteps

theorem continues (exec : PcreExec) (hanswers : search.Answers state exec)
    (hstops : ¬ stops exec.ret) : ∃ matchCount, search.Continues round
      ⟨addInt (entry exec.offsetVec) 1, exec.offsetVec, matchCount⟩ state := by
  obtain ⟨matchCount, hround⟩ := hsteps.again state exec hstops
  exact ⟨matchCount, exec, hanswers, hround⟩

/-- Where a loop can go from an offset in the subject. -/
theorem continues_cases {after : FindAll} (h : search.InSubject state.curOffset)
    (hcontinues : search.Continues round after state) :
    (∃ bounds, search.find state.curOffset = some bounds ∧
      after.curOffset = addInt (entry bounds) 1 ∧ after.offsetVec = bounds) ∨
      ∃ code ∈ search.errors state.curOffset, ¬ stops code := by
  obtain ⟨exec, hanswers, hround⟩ := hcontinues
  have hstops : ¬ stops exec.ret := fun hstops ↦ hsteps.not_again _ _ _ hstops hround
  obtain ⟨matchCount, hagain⟩ := hsteps.again state exec hstops
  rw [hround, Round.again.injEq] at hagain
  subst hagain
  cases hanswers with
  | badoffset hout => exact absurd h hout
  | noMatch => exact absurd hsteps.stops_nomatch hstops
  | found _ _ bounds _ hfind => exact .inl ⟨bounds, hfind, rfl, rfl⟩
  | error code _ _ hcode => exact .inr ⟨code, hcode, hstops⟩

/-- A search behind the end of the subject fails again and again. -/
theorem not_acc_of_badoffset (hout : ¬ search.InSubject state.curOffset)
    (hentry : addInt (entry state.offsetVec) 1 = state.curOffset) :
    ¬ Acc (search.Continues round) state := by
  let stuck : Set FindAll := {state | ¬ search.InSubject state.curOffset ∧
    addInt (entry state.offsetVec) 1 = state.curOffset}
  have hstuck : state ∈ stuck := ⟨hout, hentry⟩
  apply not_acc_of_forall_exists stuck _ hstuck
  rintro state ⟨hout, hentry⟩
  obtain ⟨matchCount, hcontinues⟩ := hsteps.continues _ (.badoffset hout)
    hsteps.not_stops_badoffset
  refine ⟨_, ?_, hcontinues⟩
  constructor
  · rw [hentry]
    exact hout
  · rfl

/-- An error that does not stop the loop can happen at the same offset again and again. -/
theorem not_acc_of_error (h : search.InSubject state.curOffset) {code : ℤ}
    (hcode : code ∈ search.errors state.curOffset) (hstops : ¬ stops code) :
    ¬ Acc (search.Continues round) state := by
  -- the error leaves in `offset_vec` what makes the loop search at this offset again
  obtain ⟨offset, hoffset⟩ : ∃ offset, offset = state.curOffset := ⟨_, rfl⟩
  rw [← hoffset] at h hcode
  have hentry : addInt (entry (offset - 1, offset - 1)) 1 = offset := by
    have hmem := hsteps.entry_mem (offset - 1, offset - 1) le_rfl
    have hlength := search.length_lt
    have hlow := h.1
    have hhigh := h.2
    rw [le_antisymm hmem.2 hmem.1, addInt_one (by omega) (by omega), sub_add_cancel]
  refine not_acc_of_forall_exists {state : FindAll | state.curOffset = offset} ?_ hoffset.symm
  rintro state hstate
  rw [← hstate] at h hcode
  obtain ⟨matchCount, hcontinues⟩ :=
    hsteps.continues _ (.error code (offset - 1, offset - 1) h hcode) hstops
  exact ⟨_, hentry, hcontinues⟩

/-- The offsets that are visited lie in the subject, and the loop gets to each of them. -/
theorem acc_of_visited (hterminates : search.Terminates round) {offset : ℤ}
    (h : search.Visited entry offset) : search.InSubject offset ∧
      ∃ offsetVec matchCount, Acc (search.Continues round) ⟨offset, offsetVec, matchCount⟩ := by
  induction h with
  | start =>
    refine ⟨?_, (-1, -1), 0, hterminates (-1, -1) 0⟩
    by_contra hout
    have hmem := hsteps.entry_mem (-1, -1) le_rfl
    refine hsteps.not_acc_of_badoffset hout ?_ (hterminates (-1, -1) 0)
    rw [le_antisymm hmem.2 hmem.1, addInt_one le_rfl (by decide)]
    rfl
  | @next offset bounds _ hfind ih =>
    obtain ⟨hoffset, offsetVec, matchCount, hacc⟩ := ih
    have hanswers : search.Answers ⟨offset, offsetVec, matchCount⟩ ⟨0, bounds⟩ :=
      .found 0 le_rfl bounds hoffset hfind
    obtain ⟨matchCount', hcontinues⟩ :=
      hsteps.continues _ hanswers (hsteps.not_stops_found 0 le_rfl)
    have hnext := hacc.inv hcontinues
    obtain ⟨hlow, hle, hend⟩ := search.find_bounds offset bounds hfind
    obtain ⟨hfirst, hlast⟩ := hsteps.entry_mem bounds hle
    have hnonneg := hoffset.1
    rcases (hlast.trans hend).lt_or_eq with hlt | heq
    · have hlength := search.length_lt
      dsimp only at hnext
      rw [addInt_one (by omega) (by omega)] at hnext
      exact ⟨⟨by omega, hlt⟩, bounds, matchCount', hnext⟩
    · refine absurd hnext (hsteps.not_acc_of_badoffset ?_ rfl)
      dsimp only
      rw [heq]
      exact search.not_inSubject_length_add_one (by omega)

/-- A loop that advances comes to its end from every offset that it visits. -/
theorem acc_of_advances (h : search.Advances entry stops) {offset : ℤ}
    (hvisited : search.Visited entry offset) (hoffset : search.InSubject offset)
    (offsetVec : ℤ × ℤ) (matchCount : ℕ) :
    Acc (search.Continues round) ⟨offset, offsetVec, matchCount⟩ := by
  -- by induction on what is left of the subject
  obtain ⟨left, hleft⟩ : ∃ left, (search.length - offset).toNat = left := ⟨_, rfl⟩
  induction left using Nat.strong_induction_on generalizing offset offsetVec matchCount with
  | _ left ih =>
    refine Acc.intro _ fun after hcontinues ↦ ?_
    rcases hsteps.continues_cases hoffset hcontinues with
      ⟨bounds, hfind, hnext, -⟩ | ⟨code, hcode, hstops⟩
    · obtain ⟨hlow, hle, -⟩ := search.find_bounds offset bounds hfind
      have hfirst := (hsteps.entry_mem bounds hle).1
      have hlt := h.lt_length offset bounds hvisited hfind
      have hlength := search.length_lt
      have hnonneg := hoffset.1
      rw [addInt_one (by omega) (by omega)] at hnext
      obtain ⟨curOffset, offsetVec', matchCount'⟩ := after
      dsimp only at hnext
      subst hnext
      exact ih _ (by omega) (hvisited.next hfind) ⟨by omega, hlt⟩ offsetVec' matchCount' rfl
    · exact absurd (h.stops_errors offset hvisited code hcode) hstops

end Steps

/-- A loop terminates exactly if it never searches behind the end of the subject and no error that
can happen keeps it going. -/
theorem terminates_iff_advances (hsteps : Steps round entry stops) :
    search.Terminates round ↔ search.Advances entry stops := by
  constructor
  · intro hterminates
    refine ⟨(hsteps.acc_of_visited hterminates .start).1.2, ?_, ?_⟩
    · intro offset hvisited code hcode
      obtain ⟨hoffset, offsetVec, matchCount, hacc⟩ := hsteps.acc_of_visited hterminates hvisited
      by_contra hstops
      exact hsteps.not_acc_of_error hoffset hcode hstops hacc
    · intro offset bounds hvisited hfind
      have hnext := (hsteps.acc_of_visited hterminates (hvisited.next hfind)).1
      exact Int.lt_of_add_one_le hnext.2
  · intro h offsetVec matchCount
    exact hsteps.acc_of_advances h .start ⟨le_rfl, h.nonneg⟩ offsetVec matchCount

end Loop

/-! ## Patterns that match at fixed places -/

/-- A pattern and a subject, given by the end of the match at each place where there is one. -/
structure Matcher where
  length : ℤ
  length_lt : length < 2 ^ 31
  matchAt : ℤ → Option ℤ
  matchAt_bounds : ∀ start stop, matchAt start = some stop → start ≤ stop ∧ stop ≤ length

namespace Matcher

variable (matcher : Matcher)

/-- The first match at one of `places` places from `offset` on. -/
def findFrom : (places : ℕ) → (offset : ℤ) → Option (ℤ × ℤ)
  | 0, _ => none
  | places + 1, offset =>
    match matcher.matchAt offset with
    | some stop => some (offset, stop)
    | none => findFrom places (offset + 1)

/-- The match with the leftmost start at or behind `offset`. -/
def find (offset : ℤ) : Option (ℤ × ℤ) :=
  matcher.findFrom (matcher.length + 1 - offset).toNat offset

theorem findFrom_eq_some {places : ℕ} {offset : ℤ} {bounds : ℤ × ℤ}
    (h : matcher.findFrom places offset = some bounds) :
    matcher.matchAt bounds.1 = some bounds.2 ∧ offset ≤ bounds.1 := by
  induction places generalizing offset with
  | zero => exact absurd h (Option.some_ne_none _).symm
  | succ places ih =>
    unfold findFrom at h
    split at h
    · next stop hmatch =>
      rw [Option.some.injEq] at h
      rw [← h]
      exact ⟨hmatch, le_rfl⟩
    · obtain ⟨hmatch, hle⟩ := ih h
      exact ⟨hmatch, Int.le_of_lt hle⟩

/-- Where there is no match at a place, the search goes on at the next one. -/
theorem find_eq (offset : ℤ) :
    matcher.find offset = match matcher.matchAt offset with
      | some stop => some (offset, stop)
      | none => matcher.find (offset + 1) := by
  unfold find
  by_cases hoffset : offset ≤ matcher.length
  · obtain ⟨places, hplaces⟩ : ∃ places : ℕ, matcher.length - offset = places :=
      Int.eq_ofNat_of_zero_le (Int.sub_nonneg_of_le hoffset)
    rw [show (matcher.length + 1 - offset).toNat = places + 1 by omega,
      show (matcher.length + 1 - (offset + 1)).toNat = places by omega, findFrom]
  · have hnone : matcher.matchAt offset = none := by
      by_contra hsome
      obtain ⟨stop, hstop⟩ := Option.ne_none_iff_exists'.mp hsome
      have hbounds := matcher.matchAt_bounds offset stop hstop
      omega
    rw [hnone, show (matcher.length + 1 - offset).toNat = 0 by omega,
      show (matcher.length + 1 - (offset + 1)).toNat = 0 by omega]
    rfl

/-- `pcre_exec` for a pattern without resource errors. -/
def search : Search where
  length := matcher.length
  length_lt := matcher.length_lt
  find := matcher.find
  find_bounds offset bounds h := by
    obtain ⟨hmatch, hlow⟩ := matcher.findFrom_eq_some h
    obtain ⟨hle, hend⟩ := matcher.matchAt_bounds _ _ hmatch
    exact ⟨hlow, hle, hend⟩
  errors _ := ∅
  errors_neg _ _ hcode := absurd hcode (Set.notMem_empty _)

/-- A pattern without special characters. -/
def literal (pattern subject : List Char) (h : subject.length < 2 ^ 31) : Matcher where
  length := subject.length
  length_lt := by exact_mod_cast h
  matchAt start :=
    if 0 ≤ start ∧ pattern <+: subject.drop start.toNat ∧ start ≤ subject.length then
      some (start + pattern.length) else none
  matchAt_bounds start stop hmatch := by
    rw [Option.ite_none_right_eq_some, Option.some.injEq] at hmatch
    obtain ⟨⟨hstart, hpattern, hle⟩, rfl⟩ := hmatch
    have hlength := hpattern.length_le
    rw [List.length_drop] at hlength
    omega

end Matcher

/-! ## The two loops -/

namespace Bench

/-- The return values on which the loop stops: no match, and the two errors that it knows. -/
def Stops (ret : ℤ) : Prop :=
  ret = pcreErrorNomatch ∨ ret = pcreErrorBadoption ∨ ret = pcreErrorBadmagic

theorem steps : Steps round Prod.snd Stops where
  again state exec hstops := by
    unfold Stops pcreErrorNomatch at hstops
    push Not at hstops
    refine ⟨state.matchCount + 1, ?_⟩
    rw [round, if_neg (not_or.mpr hstops.2), if_neg hstops.1]
  not_again state exec after hstops := by
    unfold round
    split
    · exact Round.noConfusion
    · next herror =>
      have hret : exec.ret = -1 := hstops.resolve_right herror
      rw [if_pos hret]
      exact Round.noConfusion
  stops_nomatch := .inl rfl
  not_stops_badoffset := by
    unfold Stops
    decide
  not_stops_found ret hret := by
    unfold Stops pcreErrorNomatch pcreErrorBadoption pcreErrorBadmagic
    omega
  entry_mem bounds h := ⟨h, le_rfl⟩

end Bench

namespace PcreTest

/-- The loop stops only if there is no match. -/
def Stops (ret : ℤ) : Prop := ret = pcreErrorNomatch

theorem steps : Steps round Prod.fst Stops where
  again state exec hstops := ⟨state.matchCount, if_pos hstops⟩
  not_again state exec after hstops := by
    have hret : exec.ret = -1 := hstops
    unfold round
    rw [if_neg (not_not.mpr hret)]
    split <;> exact Round.noConfusion
  stops_nomatch := rfl
  not_stops_badoffset := by
    unfold Stops
    decide
  not_stops_found ret hret := by
    unfold Stops pcreErrorNomatch
    omega
  entry_mem bounds h := ⟨le_rfl, h⟩

end PcreTest

/-- For every pattern and subject and everything that `pcre_exec` may answer: the loop of `bench.cc`
terminates exactly if no match that it finds ends at the end of the subject and no error can happen
besides the two that it checks for, and the loop of `pcre_test.cc` exactly if no match that it finds
starts at the end of the subject and no error can happen at all. -/
theorem findAllPcre_terminates_iff (search : Search) :
    (search.Terminates Bench.round ↔ search.Advances Prod.snd Bench.Stops) ∧
      (search.Terminates PcreTest.round ↔ search.Advances Prod.fst PcreTest.Stops) :=
  ⟨terminates_iff_advances Bench.steps, terminates_iff_advances PcreTest.steps⟩

/-- The pattern `ab` on the subject `ab`: the loop of `bench.cc` goes on for ever at offset 3. With
the empty pattern on the empty subject, the loop of `pcre_test.cc` goes on for ever at offset 1. -/
theorem findAllPcre_runs_for_ever :
    ¬ (Matcher.literal ['a', 'b'] ['a', 'b'] (by decide)).search.Terminates Bench.round ∧
      ¬ (Matcher.literal [] [] (by decide)).search.Terminates PcreTest.round := by
  rw [terminates_iff_advances Bench.steps, terminates_iff_advances PcreTest.steps]
  constructor
  · intro h
    exact absurd (h.lt_length 0 (0, 2) .start (by decide)) (by decide)
  · intro h
    exact absurd (h.lt_length 0 (0, 0) .start (by decide)) (by decide)

end Systemish.Hyperscan
