import Mathlib

/-!
# Rings of slots with tickets

Producers and consumers share a ring of `n` slots. A producer draws a ticket for the value that it
sends, a consumer takes a ticket, and ticket `k` is for slot `k % n`. A ticket goes through its
phases in order. It can be drawn only if the ticket one round before has gone through all of its
own, so at any time a slot is in the hands of one ticket.
-/

namespace Systemish.Foundation

/-- The phases of a ticket, in order. -/
inductive Phase where
  | fresh
  | writing
  | written
  | published
  | reading
  | read
  | released
  deriving DecidableEq

namespace Phase

/-- A consumer has the ticket, or has had it. -/
def Taken (phase : Phase) : Prop := phase = .reading ∨ phase = .read ∨ phase = .released

/-- The value is in the slot, or was. -/
def Ready (phase : Phase) : Prop := phase = .published ∨ phase.Taken

/-- Whose turn it is at the slot: the producer with the ticket, its consumer, or the producer one
round later. -/
def turn (n ticket : ℕ) : Phase → ℕ
  | .fresh => ticket
  | .writing => ticket
  | .written => ticket
  | .published => ticket + 1
  | .reading => ticket + 1
  | .read => ticket + 1
  | .released => ticket + n

end Phase

/-- The values that were sent, by ticket; how many tickets consumers have; and the phases. -/
structure TicketRing (α : Type*) where
  sent : List α
  taken : ℕ
  phase : ℕ → Phase

/-- What producers and consumers do. -/
inductive TicketAction (α : Type*) where
  | draw (value : α)
  | write (ticket : ℕ)
  | publish (ticket : ℕ)
  | take
  | read (ticket : ℕ)
  | release (ticket : ℕ)

namespace TicketRing

variable {α : Type*} {n : ℕ}

def start : TicketRing α := ⟨[], 0, fun _ ↦ .fresh⟩

/-- Write to the phase of a ticket. -/
def enter (ring : TicketRing α) (ticket : ℕ) (phase : Phase) : TicketRing α :=
  { ring with phase := Function.update ring.phase ticket phase }

/-- Draw the next ticket, for a value. -/
def draw (ring : TicketRing α) (value : α) : TicketRing α :=
  { ring.enter ring.sent.length .writing with sent := ring.sent ++ [value] }

/-- Take the next ticket. -/
def take (ring : TicketRing α) : TicketRing α :=
  { ring.enter ring.taken .reading with taken := ring.taken + 1 }

/-- The ticket one round before is released, if there is one. -/
def Open (n : ℕ) (ring : TicketRing α) (ticket : ℕ) : Prop :=
  n ≤ ticket → ring.phase (ticket - n) = .released

/-- The effect of an action, where it is possible. -/
inductive Steps (n : ℕ) (ring : TicketRing α) : TicketAction α → TicketRing α → Prop
  | draw (value : α) (hopen : ring.Open n ring.sent.length) :
      Steps n ring (.draw value) (ring.draw value)
  | write {ticket : ℕ} (hphase : ring.phase ticket = .writing) :
      Steps n ring (.write ticket) (ring.enter ticket .written)
  | publish {ticket : ℕ} (hphase : ring.phase ticket = .written) :
      Steps n ring (.publish ticket) (ring.enter ticket .published)
  | take (hphase : ring.phase ring.taken = .published) :
      Steps n ring .take ring.take
  | read {ticket : ℕ} (hphase : ring.phase ticket = .reading) :
      Steps n ring (.read ticket) (ring.enter ticket .read)
  | release {ticket : ℕ} (hphase : ring.phase ticket = .read) :
      Steps n ring (.release ticket) (ring.enter ticket .released)

variable {ring after : TicketRing α} {ticket other : ℕ}

/-- What every ring keeps. -/
structure Valid (n : ℕ) (ring : TicketRing α) : Prop where
  fresh_iff : ∀ ticket, ring.phase ticket = .fresh ↔ ring.sent.length ≤ ticket
  taken_iff : ∀ ticket, (ring.phase ticket).Taken ↔ ticket < ring.taken
  isOpen : ∀ ticket, ring.phase ticket ≠ .fresh → ring.Open n ticket

theorem valid_start : (start : TicketRing α).Valid n where
  fresh_iff ticket := iff_of_true rfl (Nat.zero_le ticket)
  taken_iff _ := iff_of_false (by simp [start, Phase.Taken]) (Nat.not_lt_zero _)
  isOpen _ h := absurd rfl h

theorem phase_enter (ring : TicketRing α) (ticket other : ℕ) (phase : Phase) :
    (ring.enter ticket phase).phase other = if other = ticket then phase else ring.phase other :=
  Function.update_apply ..

theorem phase_draw (ring : TicketRing α) (value : α) (other : ℕ) :
    (ring.draw value).phase other =
      if other = ring.sent.length then .writing else ring.phase other := phase_enter ..

theorem phase_take (ring : TicketRing α) (other : ℕ) :
    ring.take.phase other = if other = ring.taken then .reading else ring.phase other :=
  phase_enter ..

theorem length_draw (ring : TicketRing α) (value : α) :
    (ring.draw value).sent.length = ring.sent.length + 1 := List.length_append

/-- A released ticket stays so, and no other action closes what is open. -/
theorem Open.enter {phase : Phase} (h : ring.Open n other)
    (hphase : ring.phase ticket ≠ .released) : (ring.enter ticket phase).Open n other := by
  intro hle
  have hreleased := h hle
  rw [phase_enter, if_neg]
  · exact hreleased
  · rintro rfl
    exact hphase hreleased

/-- A step between phases that are both before or both after that the consumer takes the ticket. -/
theorem Valid.enter {phase : Phase} (h : ring.Valid n) (hfresh : ring.phase ticket ≠ .fresh)
    (hreleased : ring.phase ticket ≠ .released) (hfresh' : phase ≠ .fresh)
    (htaken : phase.Taken ↔ (ring.phase ticket).Taken) : (ring.enter ticket phase).Valid n where
  fresh_iff other := by
    rw [phase_enter]
    split_ifs with heq
    · subst heq
      exact iff_of_false hfresh' fun hle ↦ hfresh ((h.fresh_iff _).mpr hle)
    · exact h.fresh_iff other
  taken_iff other := by
    rw [phase_enter]
    split_ifs with heq
    · subst heq
      rw [htaken]
      exact h.taken_iff other
    · exact h.taken_iff other
  isOpen other hne := by
    apply Open.enter _ hreleased
    apply h.isOpen other
    rw [phase_enter] at hne
    split_ifs at hne with heq
    · rwa [heq]
    · exact hne

theorem Valid.step {action : TicketAction α} (h : ring.Valid n)
    (hstep : ring.Steps n action after) : after.Valid n := by
  cases hstep with
  | draw value hopen =>
    have hfresh := (h.fresh_iff _).mpr le_rfl
    refine ⟨fun other ↦ ?_, fun other ↦ ?_, fun other hne ↦ ?_⟩
    · rw [phase_draw, length_draw]
      split_ifs with heq
      · exact iff_of_false nofun (by omega)
      · rw [h.fresh_iff]
        omega
    · change ((ring.draw value).phase other).Taken ↔ other < ring.taken
      rw [phase_draw]
      split_ifs with heq
      · subst heq
        rw [← h.taken_iff, hfresh]
        simp [Phase.Taken]
      · exact h.taken_iff other
    · have hopen' : ring.Open n other := by
        rw [phase_draw] at hne
        split_ifs at hne with heq
        · rwa [heq]
        · exact h.isOpen other hne
      exact hopen'.enter (by rw [hfresh]; nofun)
  | write hphase =>
    exact h.enter (by simp [hphase]) (by simp [hphase]) nofun (by simp [hphase, Phase.Taken])
  | publish hphase =>
    exact h.enter (by simp [hphase]) (by simp [hphase]) nofun (by simp [hphase, Phase.Taken])
  | take hpublished =>
    refine ⟨fun other ↦ ?_, fun other ↦ ?_, fun other hne ↦ ?_⟩
    · change ring.take.phase other = .fresh ↔ ring.sent.length ≤ other
      rw [phase_take]
      split_ifs with heq
      · subst heq
        rw [← h.fresh_iff, hpublished]
        simp
      · exact h.fresh_iff other
    · change (ring.take.phase other).Taken ↔ other < ring.taken + 1
      rw [phase_take]
      split_ifs with heq
      · exact iff_of_true (.inl rfl) (by omega)
      · rw [h.taken_iff]
        omega
    · have hopen : ring.Open n other := by
        rw [phase_take] at hne
        split_ifs at hne with heq
        · subst heq
          exact h.isOpen _ (by simp [hpublished])
        · exact h.isOpen other hne
      exact hopen.enter (by simp [hpublished])
  | read hphase =>
    exact h.enter (by simp [hphase]) (by simp [hphase]) nofun (by simp [hphase, Phase.Taken])
  | release hphase =>
    exact h.enter (by simp [hphase]) (by simp [hphase]) nofun (by simp [hphase, Phase.Taken])

namespace Valid

variable (h : ring.Valid n)

include h

theorem taken_le : ring.taken ≤ ring.sent.length := by
  by_contra hlt
  have htaken := (h.taken_iff ring.sent.length).mpr (not_le.mp hlt)
  rw [(h.fresh_iff _).mpr le_rfl] at htaken
  simp [Phase.Taken] at htaken

theorem released_lt (hreleased : ring.phase ticket = .released) : ticket < ring.taken :=
  (h.taken_iff ticket).mp (.inr (.inr hreleased))

theorem lt_of_isOpen (hopen : ring.Open n ticket) : ticket < ring.taken + n := by
  by_cases hle : n ≤ ticket
  · have hlt := h.released_lt (hopen hle)
    omega
  · omega

theorem length_le : ring.sent.length ≤ ring.taken + n := by
  cases hlength : ring.sent.length with
  | zero => exact Nat.zero_le _
  | succ last =>
    have hne : ring.phase last ≠ .fresh := fun hfresh ↦ by
      have hle := (h.fresh_iff last).mp hfresh
      omega
    exact h.lt_of_isOpen (h.isOpen last hne)

/-- Before an open ticket, all tickets for the slot are released. -/
theorem released_of_lt (hn : 0 < n) (hopen : ring.Open n ticket) (hlt : other < ticket)
    (hslot : other % n = ticket % n) : ring.phase other = .released := by
  -- the induction is on the round of the later ticket
  induction ticket using Nat.strong_induction_on with
  | _ ticket ih =>
    have hle : n ≤ ticket := by
      by_contra hless
      rw [Nat.mod_eq_of_lt (not_le.mp hless), Nat.mod_eq_of_lt (by omega)] at hslot
      omega
    have hbefore := hopen hle
    have hmod : (ticket - n) % n = ticket % n := (Nat.mod_eq_sub_mod hle).symm
    by_cases heq : other = ticket - n
    · rw [heq]
      exact hbefore
    · apply ih (ticket - n) (by omega) (h.isOpen _ (by simp [hbefore])) _ (hslot.trans hmod.symm)
      by_contra hge
      -- two tickets for one slot are a round apart
      have hround : n ≤ ticket - other := by
        have hdvd := (Nat.modEq_iff_dvd' hlt.le).mp hslot
        exact Nat.le_of_dvd (by omega) hdvd
      omega

/-- A slot is in the hands of one ticket. -/
theorem eq_of_isOpen (hn : 0 < n) (hopen : ring.Open n ticket) (hopen' : ring.Open n other)
    (hphase : ring.phase ticket ≠ .released) (hphase' : ring.phase other ≠ .released)
    (hslot : other % n = ticket % n) : other = ticket := by
  rcases lt_trichotomy other ticket with hlt | heq | hgt
  · exact absurd (h.released_of_lt hn hopen hlt hslot) hphase'
  · exact heq
  · exact absurd (h.released_of_lt hn hopen' hgt hslot.symm) hphase

/-- Every slot is in the hands of a ticket. -/
theorem exists_isOpen {i : ℕ} (hi : i < n) :
    ∃ ticket, ticket % n = i ∧ ring.Open n ticket ∧ ring.phase ticket ≠ .released := by
  classical
  have hexists : ∃ ticket, ticket % n = i ∧ ring.phase ticket ≠ .released := by
    refine ⟨i + n * ring.sent.length, ?_, ?_⟩
    · rw [Nat.add_mul_mod_self_left, Nat.mod_eq_of_lt hi]
    · have hle : ring.sent.length ≤ i + n * ring.sent.length :=
        (Nat.le_mul_of_pos_left _ (by omega)).trans (Nat.le_add_left _ _)
      rw [(h.fresh_iff _).mpr hle]
      nofun
  obtain ⟨hslot, hphase⟩ := Nat.find_spec hexists
  refine ⟨Nat.find hexists, hslot, fun hle ↦ ?_, hphase⟩
  by_contra hbefore
  have hmin := Nat.find_min hexists (m := Nat.find hexists - n) (by omega)
  exact hmin ⟨(Nat.mod_eq_sub_mod hle).symm.trans hslot, hbefore⟩

end Valid

end TicketRing

end Systemish.Foundation
