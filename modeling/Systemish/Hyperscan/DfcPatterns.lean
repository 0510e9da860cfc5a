import Systemish.Foundation.Buckets
import Systemish.Foundation.Run
import Systemish.Hyperscan.ContentBytes

/-!
# The patterns of a DFC structure

`DFC_AddPattern` of `dfc.c`, with the hash table in which it looks for a pattern that it has seen
before. The comparison is `strcmp`, but a pattern is kept as `n` bytes without a terminator. So the
comparison stops at the first zero byte of a pattern, and it can run on into what lies behind the
block on the heap, which is a parameter here. The caller's array ends with a zero byte.
-/

namespace Systemish.Hyperscan.Dfc

open Foundation

/-- `tolower`, in the C locale. -/
def toLower (c : Byte) : Byte := if 65 ≤ c.toNat ∧ c.toNat ≤ 90 then c + 32 else c

/-- `toupper`, in the C locale. `xlatcase` is its table. -/
def toUpper (c : Byte) : Byte := if 97 ≤ c.toNat ∧ c.toNat ≤ 122 then c - 32 else c

/-- `DFC_PATTERN` without the link to the next one. -/
structure Pattern where
  casepatrn : List Byte
  nocase : Bool
  sids : List (BitVec 32)
  iid : ℕ
  deriving DecidableEq

namespace Pattern

def n (p : Pattern) : ℕ := p.casepatrn.length

/-- The pattern as `ConvertCaseEx` writes it. -/
def patrn (p : Pattern) : List Byte := p.casepatrn.map toUpper

/-- The bytes from `casepatrn` on: the block, and what lies behind it. -/
def memory (p : Pattern) (behind : ℕ → Byte) (j : ℕ) : Byte := p.casepatrn.getD j (behind (j - p.n))

/-- Add an external id at the end. -/
def addSid (sid : BitVec 32) (p : Pattern) : Pattern := { p with sids := p.sids ++ [sid] }

end Pattern

/-- `DFC_STRUCTURE` before it is compiled: the chains of `init_hash`, and `numPatterns`. -/
structure Structure where
  initHash : ℕ → List Pattern
  numPatterns : ℕ

/-- `DFC_New`. -/
def new : Structure := ⟨fun _ ↦ [], 0⟩

abbrev initHashSize : ℕ := 65536

/-- `DFC_InitHashRaw`. `patlen` has 16 bits. -/
def initHashRaw (pat : List Byte) : ℕ :=
  let patlen := pat.length % 2 ^ 16
  let hash := patlen * (pat.getD 0 0).toNat
  (if 1 < patlen then hash + (pat.getD 1 0).toNat else hash) % initHashSize

/-- Whether `strcmp` gives zero for the string at `t` and the array `pat`, from index `j` on. -/
def sameString (t : ℕ → Byte) : (j : ℕ) → (pat : List Byte) → Bool
  | j, [] => t j = 0
  | j, c :: pat => if t j ≠ c then false else if c = 0 then true else sameString t (j + 1) pat

/-- A call of `DFC_AddPattern`: its arguments, and what lies behind the block of each pattern. -/
structure Call where
  heap : ℕ → ℕ → Byte
  pat : List Byte
  nocase : Bool
  sid : BitVec 32

/-- The pattern that a call makes, with its internal id. -/
def Call.plist (call : Call) (iid : ℕ) : Pattern := ⟨call.pat, call.nocase, [call.sid], iid⟩

namespace Structure

/-- `DFC_InitHashLookup`. The heap behind the block of a pattern is known by the internal id. -/
def initHashLookup (dfc : Structure) (heap : ℕ → ℕ → Byte) (pat : List Byte) : Option Pattern :=
  (dfc.initHash (initHashRaw pat)).find? fun t ↦ sameString (t.memory (heap t.iid)) 0 pat

/-- `DFC_InitHashAdd`. -/
def initHashAdd (dfc : Structure) (p : Pattern) : Structure :=
  let hash := initHashRaw p.casepatrn
  { dfc with initHash := Function.update dfc.initHash hash (dfc.initHash hash ++ [p]) }

/-- Write to the pattern with an internal id. -/
def update (dfc : Structure) (iid : ℕ) (f : Pattern → Pattern) : Structure :=
  { dfc with initHash := fun hash ↦ (dfc.initHash hash).map fun t ↦ if t.iid = iid then f t else t }

/-- `DFC_AddPattern`, with what it returns. `DFC_REALLOC` takes its size as 16 bits, so a list of
external ids that gets too long for it is a fault. -/
def addPattern (dfc : Structure) (call : Call) : Option (Structure × ℕ) :=
  match dfc.initHashLookup call.heap call.pat with
  | none =>
    some ({ dfc.initHashAdd (call.plist dfc.numPatterns) with
      numPatterns := dfc.numPatterns + 1 }, 0)
  | some plist =>
    if call.sid ∈ plist.sids then some (dfc, 1)
    else if plist.sids.length + 1 < 2 ^ 16 then
      some (dfc.update plist.iid (Pattern.addSid call.sid), 1)
    else none

/-- The structure after a call. -/
def add (dfc : Structure) (call : Call) : Option Structure := (dfc.addPattern call).map Prod.fst

/-- The list `dfcPatterns` into which `DFC_Compile` links the chains. -/
def patterns (dfc : Structure) : List Pattern := (List.range initHashSize).flatMap dfc.initHash

end Structure

/-! ## The comparison -/

/-- `strcmp` reads up to a zero byte that both strings have. -/
theorem sameString_iff (t : ℕ → Byte) (j : ℕ) (pat : List Byte) :
    sameString t j pat ↔
      ∃ k ≤ pat.length, t (j + k) = 0 ∧ ∀ i ≤ k, t (j + i) = pat.getD i 0 := by
  induction pat generalizing j with
  | nil =>
    rw [sameString, decide_eq_true_eq]
    constructor
    · intro h
      refine ⟨0, le_rfl, h, fun i hi ↦ ?_⟩
      rw [Nat.le_zero.mp hi]
      exact h
    · rintro ⟨k, hk, hzero, -⟩
      rwa [Nat.le_zero.mp hk] at hzero
  | cons c pat ih =>
    have hshift (i : ℕ) : j + 1 + i = j + (i + 1) := by omega
    rw [sameString]
    constructor
    · intro h
      split_ifs at h with hne hc
      · refine ⟨0, Nat.zero_le _, (not_not.mp hne).trans hc, fun i hi ↦ ?_⟩
        rw [Nat.le_zero.mp hi]
        exact not_not.mp hne
      · obtain ⟨k, hk, hzero, hsame⟩ := (ih (j + 1)).mp h
        refine ⟨k + 1, Nat.succ_le_succ hk, hshift k ▸ hzero, fun i hi ↦ ?_⟩
        cases i with
        | zero => exact not_not.mp hne
        | succ i => rw [List.getD_cons_succ, ← hsame i (Nat.le_of_succ_le_succ hi), hshift]
    · rintro ⟨k, hk, hzero, hsame⟩
      have hfirst : t j = c := hsame 0 (Nat.zero_le _)
      rw [if_neg (not_not.mpr hfirst)]
      split_ifs with hc
      · rfl
      · cases k with
        | zero => exact absurd (hfirst.symm.trans hzero) hc
        | succ k =>
          apply (ih (j + 1)).mpr
          refine ⟨k, Nat.le_of_succ_le_succ hk, (hshift k).symm ▸ hzero, fun i hi ↦ ?_⟩
          have hnext := hsame (i + 1) (Nat.succ_le_succ hi)
          rwa [List.getD_cons_succ, ← hshift] at hnext

/-- A pattern that is not empty and short enough for the hash to tell its length. -/
structure Short (pat : List Byte) : Prop where
  ne_nil : pat ≠ []
  length_le : pat.length ≤ 256

/-- The hash of a short pattern is not reduced. -/
theorem Short.initHashRaw_eq {pat : List Byte} (h : Short pat) :
    initHashRaw pat = pat.length * (pat.getD 0 0).toNat +
      if 1 < pat.length then (pat.getD 1 0).toNat else 0 := by
  have hlength := h.length_le
  have hfirst := (pat.getD 0 0).isLt
  have hsecond := (pat.getD 1 0).isLt
  have hpatlen : pat.length % 2 ^ 16 = pat.length := Nat.mod_eq_of_lt (by omega)
  have hproduct : pat.length * (pat.getD 0 0).toNat ≤ 256 * 255 :=
    Nat.mul_le_mul hlength (by omega)
  have hsize : initHashSize = 65536 := rfl
  rw [initHashRaw, hpatlen]
  split_ifs
  · exact Nat.mod_eq_of_lt (by omega)
  · exact Nat.mod_eq_of_lt (by omega)

/-- Of two short patterns with the same hash, the shorter one is the beginning of the longer one
only if both begin with a zero byte. -/
theorem Short.first_eq_zero {a b : List Byte} (ha : Short a) (hb : Short b)
    (hhash : initHashRaw a = initHashRaw b) (hlt : a.length < b.length)
    (hsame : ∀ i < a.length, a.getD i 0 = b.getD i 0) : a.getD 0 0 = 0 := by
  by_contra hne
  have hpos : 0 < (a.getD 0 0).toNat :=
    Nat.pos_of_ne_zero fun hzero ↦ hne (BitVec.eq_of_toNat_eq hzero)
  have hlength : 0 < a.length := List.length_pos_iff.mpr ha.ne_nil
  rw [ha.initHashRaw_eq, hb.initHashRaw_eq, ← hsame 0 hlength,
    if_pos (by omega : 1 < b.length)] at hhash
  have hproduct : a.length * (a.getD 0 0).toNat < b.length * (a.getD 0 0).toNat :=
    Nat.mul_lt_mul_of_pos_right hlt hpos
  split_ifs at hhash with hlong
  · rw [hsame 1 hlong] at hhash
    omega
  · omega

/-- Two patterns that agree up to a zero byte, and that have the same hash. -/
def Alike (a b : List Byte) : Prop :=
  initHashRaw a = initHashRaw b ∧ ∃ z < a.length, z < b.length ∧ a.getD z 0 = 0 ∧
    ∀ i ≤ z, a.getD i 0 = b.getD i 0

instance (a b : List Byte) : Decidable (Alike a b) :=
  inferInstanceAs (Decidable (_ ∧ ∃ z, z < a.length ∧ _))

namespace Alike

variable {a b c : List Byte}

theorem symm (h : Alike a b) : Alike b a := by
  obtain ⟨hhash, z, ha, hb, hzero, hsame⟩ := h
  exact ⟨hhash.symm, z, hb, ha, (hsame z le_rfl).symm.trans hzero, fun i hi ↦ (hsame i hi).symm⟩

theorem trans (h : Alike a b) (h' : Alike b c) : Alike a c := by
  obtain ⟨hhash, z, ha, hb, hzero, hsame⟩ := h
  obtain ⟨hhash', z', hb', hc, hzero', hsame'⟩ := h'
  refine ⟨hhash.trans hhash', min z z', by omega, by omega, ?_, fun i hi ↦ ?_⟩
  · rcases le_total z z' with hle | hle
    · rwa [min_eq_left hle]
    · rwa [min_eq_right hle, hsame z' hle]
  · rw [hsame i (hi.trans (min_le_left _ _)), hsame' i (hi.trans (min_le_right _ _))]

theorem self_of_left (h : Alike a b) : Alike a a := h.trans h.symm

theorem zero_mem (h : Alike a b) : (0 : Byte) ∈ b := by
  obtain ⟨-, z, hb, -, hzero, -⟩ := h.symm
  rw [List.getD_eq_getElem _ _ hb] at hzero
  exact hzero ▸ List.getElem_mem hb

/-- Whatever lies on the heap, a pattern is taken for every pattern that it is alike. -/
theorem sameString {p : Pattern} (h : Alike p.casepatrn b) (behind : ℕ → Byte) :
    sameString (p.memory behind) 0 b := by
  obtain ⟨-, z, ha, hb, hzero, hsame⟩ := h
  have hmemory (i : ℕ) (hi : i ≤ z) : p.memory behind i = p.casepatrn.getD i 0 := by
    have hlt := hi.trans_lt ha
    rw [Pattern.memory, List.getD_eq_getElem _ _ hlt, List.getD_eq_getElem _ _ hlt]
  apply (sameString_iff _ _ _).mpr
  refine ⟨z, hb.le, ?_, fun i hi ↦ ?_⟩
  · rw [Nat.zero_add, hmemory z le_rfl, hzero]
  · rw [Nat.zero_add, hmemory i hi, hsame i hi]

end Alike

/-- Whatever lies on the heap, a short pattern is taken for no other short pattern that it is not
alike. -/
theorem Short.eq_or_alike {p : Pattern} {pat : List Byte} {behind : ℕ → Byte}
    (hp : Short p.casepatrn) (hpat : Short pat)
    (hhash : initHashRaw p.casepatrn = initHashRaw pat)
    (h : sameString (p.memory behind) 0 pat) : p.casepatrn = pat ∨ Alike p.casepatrn pat := by
  obtain ⟨k, hk, hzero, hsame⟩ := (sameString_iff _ _ _).mp h
  simp only [Nat.zero_add] at hzero hsame
  have hpos : 0 < p.casepatrn.length := List.length_pos_iff.mpr hp.ne_nil
  have hpos' : 0 < pat.length := List.length_pos_iff.mpr hpat.ne_nil
  have hbytes (i : ℕ) (hi : i < p.casepatrn.length) (hle : i ≤ k) :
      p.casepatrn.getD i 0 = pat.getD i 0 := by
    rw [← hsame i hle, Pattern.memory, List.getD_eq_getElem _ _ hi, List.getD_eq_getElem _ _ hi]
  have hfirst (hempty : p.casepatrn.getD 0 0 = 0) : Alike p.casepatrn pat := by
    refine ⟨hhash, 0, hpos, hpos', hempty, fun i hi ↦ ?_⟩
    rw [Nat.le_zero.mp hi]
    exact hbytes 0 hpos (Nat.zero_le k)
  by_cases hinside : k < p.casepatrn.length
  · have hzero' : p.casepatrn.getD k 0 = 0 := by
      rw [Pattern.memory, List.getD_eq_getElem _ _ hinside] at hzero
      rwa [List.getD_eq_getElem _ _ hinside]
    rcases lt_or_eq_of_le hk with hlt | rfl
    · exact .inr ⟨hhash, k, hinside, hlt, hzero', fun i hi ↦ hbytes i (hi.trans_lt hinside) hi⟩
    · -- the other pattern has ended, so it is the beginning of this one
      have hbegin := hpat.first_eq_zero hp hhash.symm hinside
        fun i hi ↦ (hbytes i (hi.trans hinside) hi.le).symm
      exact .inr (hfirst ((hbytes 0 hpos (Nat.zero_le _)).trans hbegin))
  · rcases lt_or_eq_of_le ((not_lt.mp hinside).trans hk) with hlt | heq
    · -- the comparison has left the block
      exact .inr (hfirst (hp.first_eq_zero hpat hhash hlt
        fun i hi ↦ hbytes i hi (hi.le.trans (not_lt.mp hinside))))
    · apply Or.inl
      apply List.ext_getElem heq
      intro i hi hi'
      have hbyte := hbytes i hi (hi.le.trans (not_lt.mp hinside))
      rwa [List.getD_eq_getElem _ _ hi, List.getD_eq_getElem _ _ hi'] at hbyte

/-! ## One call -/

namespace Structure

variable {dfc after : Structure} {call : Call} {p : Pattern}

/-- What a call does: it does nothing, or it adds an external id, or it adds a pattern. -/
inductive Adds (dfc : Structure) (call : Call) : Structure → Prop
  | known {plist : Pattern} (hlookup : dfc.initHashLookup call.heap call.pat = some plist)
      (hsid : call.sid ∈ plist.sids) : Adds dfc call dfc
  | sid {plist : Pattern} (hlookup : dfc.initHashLookup call.heap call.pat = some plist)
      (hsid : call.sid ∉ plist.sids) :
      Adds dfc call (dfc.update plist.iid (Pattern.addSid call.sid))
  | pattern (hlookup : dfc.initHashLookup call.heap call.pat = none) :
      Adds dfc call { dfc.initHashAdd (call.plist dfc.numPatterns) with
        numPatterns := dfc.numPatterns + 1 }

theorem adds_of_add (h : dfc.add call = some after) : Adds dfc call after := by
  rw [add, addPattern] at h
  split at h
  · next hlookup =>
    obtain rfl := Option.some.inj h
    exact .pattern hlookup
  · next plist hlookup =>
    split_ifs at h with hsid hsize
    · obtain rfl := Option.some.inj h
      exact .known hlookup hsid
    · obtain rfl := Option.some.inj h
      exact .sid hlookup hsid
    · exact absurd h (Option.some_ne_none _).symm

theorem mem_initHash_of_lookup {plist : Pattern}
    (h : dfc.initHashLookup call.heap call.pat = some plist) :
    plist ∈ dfc.initHash (initHashRaw call.pat) := List.mem_of_find?_eq_some h

theorem sameString_of_lookup {plist : Pattern}
    (h : dfc.initHashLookup call.heap call.pat = some plist) :
    sameString (plist.memory (call.heap plist.iid)) 0 call.pat := by
  rw [initHashLookup] at h
  simpa using List.find?_some h

theorem initHashRaw_lt (pat : List Byte) : initHashRaw pat < initHashSize := by
  rw [initHashRaw]
  exact Nat.mod_lt _ (by decide)

theorem mem_patterns_of_mem_initHash {pat : List Byte} (h : p ∈ dfc.initHash (initHashRaw pat)) :
    p ∈ dfc.patterns :=
  List.mem_flatMap.mpr ⟨_, List.mem_range.mpr (initHashRaw_lt pat), h⟩

theorem patterns_update (dfc : Structure) (iid : ℕ) (f : Pattern → Pattern) :
    (dfc.update iid f).patterns = dfc.patterns.map fun t ↦ if t.iid = iid then f t else t :=
  (List.map_flatMap ..).symm

theorem initHash_initHashAdd (dfc : Structure) (p : Pattern) (hash : ℕ) :
    (dfc.initHashAdd p).initHash hash =
      if hash = initHashRaw p.casepatrn then dfc.initHash hash ++ [p] else dfc.initHash hash := by
  by_cases h : hash = initHashRaw p.casepatrn
  · rw [if_pos h, h]
    exact Function.update_self ..
  · rw [if_neg h]
    exact Function.update_of_ne h ..

theorem patterns_initHashAdd (dfc : Structure) (p : Pattern) :
    (dfc.initHashAdd p).patterns.Perm (p :: dfc.patterns) := by
  have hpush := Buckets.flatMap_update_cons dfc.initHash (initHashRaw p.casepatrn) p
    (List.range initHashSize) List.nodup_range (List.mem_range.mpr (initHashRaw_lt _))
  apply List.Perm.trans _ hpush
  apply List.Perm.flatMap_left
  intro hash _
  rw [initHash_initHashAdd]
  by_cases h : hash = initHashRaw p.casepatrn
  · rw [if_pos h, h, Function.update_self]
    exact List.perm_append_singleton _ _
  · rw [if_neg h, Function.update_of_ne h]

/-- The pattern that is written to keeps its bytes and its internal id. -/
theorem mem_patterns_update {iid : ℕ} {sid : BitVec 32}
    (h : p ∈ (dfc.update iid (Pattern.addSid sid)).patterns) :
    ∃ t ∈ dfc.patterns, p = if t.iid = iid then t.addSid sid else t := by
  rw [patterns_update] at h
  obtain ⟨t, ht, rfl⟩ := List.mem_map.mp h
  exact ⟨t, ht, rfl⟩

theorem patterns_new : new.patterns = [] := List.flatMap_eq_nil_iff.mpr fun _ _ ↦ rfl

/-- What every structure keeps: a pattern is in the chain of its hash, internal ids are given once
and in order, and no pattern is without an external id. -/
structure Valid (dfc : Structure) : Prop where
  hash : ∀ hash, ∀ p ∈ dfc.initHash hash, initHashRaw p.casepatrn = hash
  nodup : (dfc.patterns.map Pattern.iid).Nodup
  lt : ∀ p ∈ dfc.patterns, p.iid < dfc.numPatterns
  sids : ∀ p ∈ dfc.patterns, p.sids ≠ []

theorem Valid.mem_initHash (h : dfc.Valid) (hp : p ∈ dfc.patterns) :
    p ∈ dfc.initHash (initHashRaw p.casepatrn) := by
  obtain ⟨hash, -, hmem⟩ := List.mem_flatMap.mp hp
  rwa [h.hash hash p hmem]

theorem valid_new : new.Valid where
  hash _ _ hp := absurd hp List.not_mem_nil
  nodup := by rw [patterns_new, List.map_nil]; exact List.nodup_nil
  lt p hp := absurd (patterns_new ▸ hp) List.not_mem_nil
  sids p hp := absurd (patterns_new ▸ hp) List.not_mem_nil

theorem Valid.update (h : dfc.Valid) (iid : ℕ) (sid : BitVec 32) :
    (dfc.update iid (Pattern.addSid sid)).Valid where
  hash hash p hp := by
    obtain ⟨t, ht, rfl⟩ := List.mem_map.mp hp
    rw [← h.hash hash t ht]
    split_ifs <;> rfl
  nodup := by
    have hiid : Pattern.iid ∘ (fun t ↦ if t.iid = iid then t.addSid sid else t) = Pattern.iid := by
      funext t
      rw [Function.comp_apply]
      split_ifs <;> rfl
    rw [patterns_update, List.map_map, hiid]
    exact h.nodup
  lt p hp := by
    obtain ⟨t, ht, rfl⟩ := mem_patterns_update hp
    have := h.lt t ht
    split_ifs <;> exact this
  sids p hp := by
    obtain ⟨t, ht, rfl⟩ := mem_patterns_update hp
    split_ifs
    · exact List.append_ne_nil_of_right_ne_nil _ (List.cons_ne_nil _ _)
    · exact h.sids t ht

theorem Valid.adds (h : dfc.Valid) (hadds : Adds dfc call after) : after.Valid := by
  cases hadds with
  | known => exact h
  | sid => exact h.update _ _
  | pattern =>
    have hperm := patterns_initHashAdd dfc (call.plist dfc.numPatterns)
    have hmem (p : Pattern) (hp : p ∈ (dfc.initHashAdd (call.plist dfc.numPatterns)).patterns) :
        p = call.plist dfc.numPatterns ∨ p ∈ dfc.patterns := List.mem_cons.mp (hperm.mem_iff.mp hp)
    refine ⟨fun hash p hp ↦ ?_, ?_, fun p hp ↦ ?_, fun p hp ↦ ?_⟩
    · change p ∈ (dfc.initHashAdd _).initHash hash at hp
      rw [initHash_initHashAdd] at hp
      split_ifs at hp with hhash
      · rcases List.mem_append.mp hp with hold | hnew
        · exact h.hash hash p hold
        · rw [List.mem_singleton.mp hnew, hhash]
      · exact h.hash hash p hp
    · change ((dfc.initHashAdd _).patterns.map Pattern.iid).Nodup
      rw [(hperm.map Pattern.iid).nodup_iff, List.map_cons, List.nodup_cons]
      refine ⟨fun hiid ↦ ?_, h.nodup⟩
      obtain ⟨q, hq, heq⟩ := List.mem_map.mp hiid
      exact absurd heq (h.lt q hq).ne
    · rcases hmem p hp with rfl | hold
      · exact Nat.lt_succ_self _
      · exact (h.lt p hold).trans (Nat.lt_succ_self _)
    · rcases hmem p hp with rfl | hold
      · exact List.cons_ne_nil _ _
      · exact h.sids p hold

/-- Patterns come from calls, and they keep their bytes and their flag. -/
theorem mem_patterns_of_adds (hadds : Adds dfc call after) (hp : p ∈ after.patterns) :
    (∃ t ∈ dfc.patterns, t.casepatrn = p.casepatrn ∧ t.nocase = p.nocase) ∨
      call.pat = p.casepatrn ∧ call.nocase = p.nocase := by
  cases hadds with
  | known => exact .inl ⟨p, hp, rfl, rfl⟩
  | sid =>
    obtain ⟨t, ht, rfl⟩ := mem_patterns_update hp
    refine .inl ⟨t, ht, ?_⟩
    split_ifs <;> exact ⟨rfl, rfl⟩
  | pattern =>
    have hperm := patterns_initHashAdd dfc (call.plist dfc.numPatterns)
    rcases List.mem_cons.mp (hperm.mem_iff.mp hp) with rfl | hold
    · exact .inr ⟨rfl, rfl⟩
    · exact .inl ⟨p, hold, rfl, rfl⟩

/-- A pattern with these bytes has this external id. -/
def Holds (dfc : Structure) (pat : List Byte) (sid : BitVec 32) : Prop :=
  ∃ p ∈ dfc.patterns, p.casepatrn = pat ∧ sid ∈ p.sids

/-- A call that finds a pattern leaves its external id there. -/
theorem Valid.holds_of_lookup {plist : Pattern} (h : dfc.Valid) (hadds : Adds dfc call after)
    (hlookup : dfc.initHashLookup call.heap call.pat = some plist) (pat : List Byte)
    (sid : BitVec 32) :
    after.Holds pat sid ↔ dfc.Holds pat sid ∨ pat = plist.casepatrn ∧ sid = call.sid := by
  have hplist := mem_patterns_of_mem_initHash (mem_initHash_of_lookup hlookup)
  cases hadds with
  | pattern hnone => exact absurd (hlookup.symm.trans hnone) (Option.some_ne_none _)
  | known hlookup' hsid =>
    obtain rfl := Option.some.inj (hlookup.symm.trans hlookup')
    refine ⟨.inl, fun hholds ↦ hholds.elim id ?_⟩
    rintro ⟨rfl, rfl⟩
    exact ⟨plist, hplist, rfl, hsid⟩
  | sid hlookup' =>
    obtain rfl := Option.some.inj (hlookup.symm.trans hlookup')
    constructor
    · rintro ⟨p, hp, rfl, hsid⟩
      obtain ⟨t, ht, rfl⟩ := mem_patterns_update hp
      split_ifs at hsid ⊢ with hiid
      · obtain rfl : t = plist := List.inj_on_of_nodup_map h.nodup ht hplist hiid
        rcases List.mem_append.mp hsid with hold | hnew
        · exact .inl ⟨t, ht, rfl, hold⟩
        · exact .inr ⟨rfl, List.mem_singleton.mp hnew⟩
      · exact .inl ⟨t, ht, rfl, hsid⟩
    · have hmem (t : Pattern) (ht : t ∈ dfc.patterns) :
          (if t.iid = plist.iid then t.addSid call.sid else t) ∈
            (dfc.update plist.iid (Pattern.addSid call.sid)).patterns := by
        rw [patterns_update]
        exact List.mem_map_of_mem ht
      rintro (⟨t, ht, rfl, hsid⟩ | ⟨rfl, rfl⟩)
      · refine ⟨_, hmem t ht, ?_⟩
        split_ifs
        · exact ⟨rfl, List.mem_append_left _ hsid⟩
        · exact ⟨rfl, hsid⟩
      · refine ⟨_, hmem plist hplist, ?_⟩
        rw [if_pos rfl]
        exact ⟨rfl, List.mem_append_right _ (List.mem_singleton_self _)⟩

/-- A call that finds no pattern leaves a new one. -/
theorem holds_of_lookup_none (hadds : Adds dfc call after)
    (hlookup : dfc.initHashLookup call.heap call.pat = none) (pat : List Byte)
    (sid : BitVec 32) :
    after.Holds pat sid ↔ dfc.Holds pat sid ∨ pat = call.pat ∧ sid = call.sid := by
  cases hadds with
  | known hsome => exact absurd (hlookup.symm.trans hsome) (Option.some_ne_none _).symm
  | sid hsome => exact absurd (hlookup.symm.trans hsome) (Option.some_ne_none _).symm
  | pattern =>
    have hperm := patterns_initHashAdd dfc (call.plist dfc.numPatterns)
    constructor
    · rintro ⟨p, hp, rfl, hsid⟩
      rcases List.mem_cons.mp (hperm.mem_iff.mp hp) with rfl | hold
      · exact .inr ⟨rfl, List.mem_singleton.mp hsid⟩
      · exact .inl ⟨p, hold, rfl, hsid⟩
    · rintro (⟨p, hp, rfl, hsid⟩ | ⟨rfl, rfl⟩)
      · exact ⟨p, hperm.mem_iff.mpr (List.mem_cons_of_mem _ hp), rfl, hsid⟩
      · exact ⟨_, hperm.mem_iff.mpr List.mem_cons_self, rfl, List.mem_singleton_self _⟩

end Structure

/-! ## Runs of calls -/

section Runs

variable {pats : List (List Byte)} {pat other : List Byte}

/-- The pattern that stands for `pat` once `pats` have been added: the first one that it is alike,
if there is one. -/
def representative (pats : List (List Byte)) (pat : List Byte) : List Byte :=
  (pats.find? fun other ↦ Alike other pat).getD pat

/-- A pattern without a zero byte stands for itself. -/
theorem representative_of_zero_notMem (h : (0 : Byte) ∉ pat) : representative pats pat = pat := by
  have hnone : (pats.find? fun other ↦ Alike other pat) = none :=
    List.find?_eq_none.mpr fun other _ halike ↦ h (of_decide_eq_true halike).zero_mem
  rw [representative, hnone, Option.getD_none]

theorem representative_mem (h : pat ∈ pats) : representative pats pat ∈ pats := by
  rw [representative]
  cases hfind : pats.find? fun other ↦ Alike other pat with
  | none => exact h
  | some first => exact List.mem_of_find?_eq_some hfind

/-- Patterns that are alike have the same representative. -/
theorem find?_alike_congr (h : Alike pat other) :
    (pats.find? fun a ↦ Alike a pat) = pats.find? fun a ↦ Alike a other := by
  have hsame : (fun a ↦ decide (Alike a pat)) = fun a ↦ decide (Alike a other) := by
    funext a
    exact decide_eq_decide.mpr ⟨fun ha ↦ ha.trans h, fun ha ↦ ha.trans h.symm⟩
  rw [hsame]

theorem representative_append (h : pat ∈ pats ∨ pat = other) :
    representative (pats ++ [other]) pat = representative pats pat := by
  unfold representative
  rw [List.find?_append]
  cases hfind : pats.find? fun a ↦ Alike a pat with
  | some first => rfl
  | none =>
    rw [Option.none_or, List.find?_singleton]
    split_ifs with halike
    · rcases h with hmem | rfl
      · -- a pattern that is alike something is alike itself, so the search would have found it
        exact absurd (decide_eq_true (of_decide_eq_true halike).symm.self_of_left)
          (List.find?_eq_none.mp hfind pat hmem)
      · rfl
    · rfl

end Runs

namespace Structure

variable {history : List (Structure × Call)} {dfc after : Structure} {call : Call}

/-- The patterns of a run of calls, in order. -/
def patsOf (history : List (Structure × Call)) : List (List Byte) :=
  (history.map fun entry ↦ entry.2.pat).reverse

/-- The structure holds, for each call, the representative of its pattern with its external id. -/
structure Represents (history : List (Structure × Call)) (dfc : Structure) : Prop where
  valid : dfc.Valid
  short : ∀ p ∈ dfc.patterns, Short p.casepatrn
  holds : ∀ pat sid, dfc.Holds pat sid ↔
    ∃ entry ∈ history, entry.2.sid = sid ∧ representative (patsOf history) entry.2.pat = pat

namespace Represents

theorem stored_iff (h : Represents history dfc) (pat : List Byte) :
    (∃ p ∈ dfc.patterns, p.casepatrn = pat) ↔
      ∃ other ∈ patsOf history, representative (patsOf history) other = pat := by
  constructor
  · rintro ⟨p, hp, rfl⟩
    obtain ⟨sid, hsid⟩ := List.exists_mem_of_ne_nil _ (h.valid.sids p hp)
    obtain ⟨entry, hentry, -, hpat⟩ := (h.holds _ sid).mp ⟨p, hp, rfl, hsid⟩
    exact ⟨entry.2.pat, List.mem_reverse.mpr (List.mem_map_of_mem hentry), hpat⟩
  · rintro ⟨other, hother, rfl⟩
    obtain ⟨entry, hentry, rfl⟩ := List.mem_map.mp (List.mem_reverse.mp hother)
    obtain ⟨p, hp, hpat, -⟩ := (h.holds _ entry.2.sid).mpr ⟨entry, hentry, rfl, rfl⟩
    exact ⟨p, hp, hpat⟩

/-- A pattern that is stored and alike `pat` is the representative of `pat`. -/
theorem representative_eq (h : Represents history dfc) {p : Pattern} (hp : p ∈ dfc.patterns)
    {pat : List Byte} (halike : Alike p.casepatrn pat) :
    representative (patsOf history) pat = p.casepatrn := by
  obtain ⟨other, hother, hrep⟩ := (h.stored_iff p.casepatrn).mp ⟨p, hp, rfl⟩
  rw [representative] at hrep
  cases hfind : (patsOf history).find? fun a ↦ Alike a other with
  | none =>
    rw [hfind, Option.getD_none] at hrep
    exact absurd (decide_eq_true (hrep ▸ halike.self_of_left : Alike other other))
      (List.find?_eq_none.mp hfind other hother)
  | some first =>
    rw [hfind, Option.getD_some] at hrep
    have hfirst : Alike first other := by simpa using List.find?_some hfind
    have hpat : Alike other pat := hfirst.symm.trans (hrep ▸ halike)
    rw [representative, ← find?_alike_congr hpat, hfind, Option.getD_some, hrep]

/-- A pattern that is alike no stored one stands for itself. -/
theorem representative_eq_self (h : Represents history dfc) {pat : List Byte}
    (hnone : ∀ p ∈ dfc.patterns, ¬ Alike p.casepatrn pat) :
    representative (patsOf history) pat = pat := by
  rw [representative]
  cases hfind : (patsOf history).find? fun a ↦ Alike a pat with
  | none => rfl
  | some first =>
    have hfirst : Alike first pat := by simpa using List.find?_some hfind
    have hrep : representative (patsOf history) first = first := by
      rw [representative, find?_alike_congr hfirst, hfind, Option.getD_some]
    obtain ⟨p, hp, hpat⟩ := (h.stored_iff first).mpr ⟨first, List.mem_of_find?_eq_some hfind, hrep⟩
    exact absurd (hpat ▸ hfirst) (hnone p hp)

/-- What a lookup finds is the representative, and it finds nothing only if the pattern stands for
itself. -/
theorem casepatrn_eq (h : Represents history dfc) (hshort : Short call.pat) {plist : Pattern}
    (hlookup : dfc.initHashLookup call.heap call.pat = some plist) :
    plist.casepatrn = representative (patsOf history) call.pat := by
  have hmem := mem_initHash_of_lookup hlookup
  have hplist := mem_patterns_of_mem_initHash hmem
  by_cases halike : Alike plist.casepatrn call.pat
  · exact (h.representative_eq hplist halike).symm
  · have heq := ((h.short plist hplist).eq_or_alike hshort (h.valid.hash _ plist hmem)
      (sameString_of_lookup hlookup)).resolve_right halike
    rw [h.representative_eq_self, heq]
    intro p hp hp'
    exact halike (heq ▸ hp'.symm.self_of_left)

theorem pat_eq (h : Represents history dfc)
    (hlookup : dfc.initHashLookup call.heap call.pat = none) :
    call.pat = representative (patsOf history) call.pat := by
  apply (h.representative_eq_self _).symm
  intro p hp halike
  have hmem := h.valid.mem_initHash hp
  rw [halike.1] at hmem
  exact List.find?_eq_none.mp hlookup p hmem (halike.sameString _)

theorem adds (h : Represents history dfc) (hshort : Short call.pat) (hadds : Adds dfc call after) :
    Represents ((dfc, call) :: history) after where
  valid := h.valid.adds hadds
  short p hp := by
    rcases mem_patterns_of_adds hadds hp with ⟨t, ht, hbytes, -⟩ | ⟨hbytes, -⟩
    · exact hbytes ▸ h.short t ht
    · exact hbytes ▸ hshort
  holds pat sid := by
    have hpats : patsOf ((dfc, call) :: history) = patsOf history ++ [call.pat] :=
      List.reverse_cons
    have hstep : after.Holds pat sid ↔ dfc.Holds pat sid ∨
        pat = representative (patsOf history) call.pat ∧ sid = call.sid := by
      cases hlookup : dfc.initHashLookup call.heap call.pat with
      | none => rw [holds_of_lookup_none hadds hlookup, ← h.pat_eq hlookup]
      | some plist =>
        rw [h.valid.holds_of_lookup hadds hlookup, h.casepatrn_eq hshort hlookup]
    rw [hstep, h.holds, List.exists_mem_cons_iff, hpats, representative_append (.inr rfl)]
    constructor
    · rintro (⟨entry, hentry, hsid, hpat⟩ | ⟨rfl, rfl⟩)
      · have hmem : entry.2.pat ∈ patsOf history :=
          List.mem_reverse.mpr (List.mem_map_of_mem hentry)
        exact .inr ⟨entry, hentry, hsid, (representative_append (.inl hmem)).trans hpat⟩
      · exact .inl ⟨rfl, rfl⟩
    · rintro (⟨rfl, rfl⟩ | ⟨entry, hentry, hsid, hpat⟩)
      · exact .inr ⟨rfl, rfl⟩
      · have hmem : entry.2.pat ∈ patsOf history :=
          List.mem_reverse.mpr (List.mem_map_of_mem hentry)
        exact .inl ⟨entry, hentry, hsid, (representative_append (.inl hmem)).symm.trans hpat⟩

end Represents

theorem represents_of_run
    (hrun : Run Structure.add (fun _ call ↦ Short call.pat) new history dfc) :
    Represents history dfc := by
  apply hrun.invariant_history Represents
  · refine ⟨valid_new, fun p hp ↦ absurd (patterns_new ▸ hp) List.not_mem_nil, fun pat sid ↦ ?_⟩
    rw [Holds, patterns_new]
    simp
  · intro history dfc call after h hshort hadd
    exact h.adds hshort (adds_of_add hadd)

/-- No more is stored than the calls of a run bring. -/
structure Small (history : List (Structure × Call)) (dfc : Structure) : Prop where
  shapes : (dfc.patterns.map fun p ↦ (p.casepatrn, p.nocase)).Subperm
    (history.map fun entry ↦ (entry.2.pat, entry.2.nocase))
  sids : ∀ p ∈ dfc.patterns, p.sids.length ≤ history.length

theorem Small.adds (h : Small history dfc) (hadds : Adds dfc call after) :
    Small ((dfc, call) :: history) after := by
  cases hadds with
  | known =>
    exact ⟨h.shapes.trans (List.sublist_cons_self _ _).subperm,
      fun p hp ↦ (h.sids p hp).trans (Nat.le_succ _)⟩
  | sid =>
    constructor
    · have hshape (iid : ℕ) : (fun p ↦ (p.casepatrn, p.nocase)) ∘ (fun t ↦ if t.iid = iid then
          t.addSid call.sid else t) = fun p : Pattern ↦ (p.casepatrn, p.nocase) := by
        funext t
        rw [Function.comp_apply]
        split_ifs <;> rfl
      rw [patterns_update, List.map_map, hshape]
      exact h.shapes.trans (List.sublist_cons_self _ _).subperm
    · intro p hp
      obtain ⟨t, ht, rfl⟩ := mem_patterns_update hp
      have hsids := h.sids t ht
      split_ifs
      · rw [Pattern.addSid, List.length_append]
        exact Nat.succ_le_succ hsids
      · exact hsids.trans (Nat.le_succ _)
  | pattern =>
    have hperm := patterns_initHashAdd dfc (call.plist dfc.numPatterns)
    constructor
    · apply ((hperm.map _).subperm_right.mpr)
      exact (List.subperm_cons _).mpr h.shapes
    · intro p hp
      rcases List.mem_cons.mp (hperm.mem_iff.mp hp) with rfl | hold
      · exact Nat.succ_le_succ (Nat.zero_le _)
      · exact (h.sids p hold).trans (Nat.le_succ _)

/-- A call succeeds as long as no list of external ids is long. -/
theorem exists_add (h : Small history dfc) (hlength : history.length + 1 < 2 ^ 16) (call : Call) :
    ∃ after, dfc.add call = some after := by
  rw [add, addPattern]
  split
  · exact ⟨_, rfl⟩
  · next plist hlookup =>
    have hsids := h.sids plist (mem_patterns_of_mem_initHash (mem_initHash_of_lookup hlookup))
    by_cases hsid : call.sid ∈ plist.sids
    · rw [if_pos hsid]
      exact ⟨_, rfl⟩
    · rw [if_neg hsid, if_pos (by omega)]
      exact ⟨_, rfl⟩

theorem small_of_run {allowed : Structure → Call → Prop}
    (hrun : Run Structure.add allowed new history dfc) : Small history dfc := by
  apply hrun.invariant_history Small
  · constructor
    · rw [patterns_new]
      exact List.Subperm.refl _
    · exact fun p hp ↦ absurd (patterns_new ▸ hp) List.not_mem_nil
  · intro history dfc call after h _ hadd
    exact h.adds (adds_of_add hadd)

end Structure

end Systemish.Hyperscan.Dfc
