import Systemish.Hyperscan.DfcSearch

/-!
# DFC from the first pattern to the last packet

A structure is filled by calls of `DFC_AddPattern`, compiled, and searched. What the search reports
is described by the calls alone. `bench.cc` does this with `evaluate_dfc`, and it scans the same
packets with a regular expression engine in `evaluate_hyperscan`. The engine is known by what it
promises for literal expressions.
-/

namespace Systemish.Hyperscan.Dfc

open Foundation

/-! ## From calls to reports -/

/-- `DFC_New`, the calls of `DFC_AddPattern`, and `DFC_Compile`. -/
def prepare (calls : List Call) : Option (Structure × Compiled) :=
  match follow Structure.add [] new calls with
  | none => none
  | some (_, dfc) => (compile dfc).map fun compiled ↦ (dfc, compiled)

/-- Calls that the structure has place for. -/
structure Admissible (calls : List Call) : Prop where
  short : ∀ call ∈ calls, Short call.pat
  length_lt : calls.length < 2 ^ 16
  letters : ∀ c, calls.countP (fun call ↦ call.pat.length = 1 ∧ (call.plist 0).Accepts 0 c) ≤ 100
  middle : calls.countP (fun call ↦ 4 ≤ call.pat.length ∧ call.pat.length < 8) < 2 ^ 12

namespace Admissible

variable {calls : List Call} {history : List (Structure × Call)} {dfc : Structure}

/-- There is place for the patterns of a hundred calls. -/
theorem of_length_le (hshort : ∀ call ∈ calls, Short call.pat) (hlength : calls.length ≤ 100) :
    Admissible calls where
  short := hshort
  length_lt := by omega
  letters _ := List.countP_le_length.trans hlength
  middle := (List.countP_le_length.trans hlength).trans_lt (by decide)

/-- What is true of few calls is true of few patterns. -/
theorem countP_le (hsmall : dfc.Small history) (hcalls : history.map Prod.snd = calls.reverse)
    (check : List Byte × Bool → Bool) :
    dfc.patterns.countP (fun p ↦ check (p.casepatrn, p.nocase)) ≤
      calls.countP fun call ↦ check (call.pat, call.nocase) := by
  have hle := hsmall.shapes.countP_le check
  have hmap : (history.map fun entry ↦ (entry.2.pat, entry.2.nocase)) =
      calls.reverse.map fun call ↦ (call.pat, call.nocase) := by
    rw [← hcalls, List.map_map]
    rfl
  rw [hmap, List.countP_map, List.countP_map, List.countP_reverse] at hle
  exact hle

theorem fits (h : Admissible calls) (hvalid : dfc.Valid) (hsmall : dfc.Small history)
    (hcalls : history.map Prod.snd = calls.reverse) : Fits dfc.patterns := by
  have hletters (c : Byte) := countP_le hsmall hcalls fun shape ↦
    shape.1.length = 1 ∧ (Pattern.mk shape.1 shape.2 [] 0).Accepts 0 c
  have hmiddle := countP_le hsmall hcalls fun shape ↦ 4 ≤ shape.1.length ∧ shape.1.length < 8
  have hlength := countP_le hsmall hcalls fun _ ↦ true
  simp only [List.countP_true] at hlength
  apply fits_of_lt hvalid.nodup (hlength.trans_lt h.length_lt)
  · intro c
    rw [← List.countP_eq_length_filter]
    exact (hletters c).trans (h.letters c)
  · rw [← List.countP_eq_length_filter]
    exact hmiddle.trans_lt h.middle

/-- All calls succeed, and so does the compilation. -/
theorem exists_prepare (h : Admissible calls) : ∃ history dfc,
    prepare calls = some (dfc, build dfc.patterns) ∧ dfc.Represents history ∧ dfc.Small history ∧
      history.map Prod.snd = calls.reverse := by
  have hstart : Run Structure.add (fun _ call ↦ Short call.pat) new [] new := .start
  obtain ⟨history, dfc, hfollow, hrun, hcalls⟩ :=
    hstart.exists_follow calls (fun _ ↦ h.short) fun history state call hrun hlt ↦ by
      have hlength := h.length_lt
      rw [List.length_nil, Nat.zero_add] at hlt
      exact Structure.exists_add (Structure.small_of_run hrun) (by omega) call
  have hrep := Structure.represents_of_run hrun
  have hsmall := Structure.small_of_run hrun
  rw [List.map_nil, List.append_nil] at hcalls
  refine ⟨history, dfc, ?_, hrep, hsmall, hcalls⟩
  have hfits := h.fits hrep.valid hsmall hcalls
  simp only [prepare, hfollow, compile, if_pos hfits, Option.map_some]

end Admissible

section Reports

variable {calls : List Call} {history : List (Structure × Call)} {dfc : Structure} {p : Pattern}
  {nocase : Bool} {mem : ℤ → Byte} {buflen : ℕ}

/-- Bytes lie in memory, from an address on. -/
def Occurs (nocase : Bool) (pat : List Byte) (mem : ℤ → Byte) (start : ℤ) : Prop :=
  (Pattern.mk pat nocase [] 0).OccursAt mem start

/-- Bytes lie in the payload. -/
def InPayload (nocase : Bool) (pat : List Byte) (mem : ℤ → Byte) (buflen : ℕ) : Prop :=
  ∃ start : ℤ, 0 ≤ start ∧ start + pat.length ≤ buflen ∧ Occurs nocase pat mem start

/-- No pattern of less than eight bytes begins in the three bytes in front of the payload. -/
def Clean (nocase : Bool) (pats : List (List Byte)) (mem : ℤ → Byte) : Prop :=
  ∀ pat ∈ pats, pat.length < 8 → ∀ start : ℤ, -3 ≤ start → start < 0 → ¬ Occurs nocase pat mem start

/-- If only zeros lie in front of the payload, no pattern begins there that does not begin with a
zero. -/
theorem clean_of_zero_before {pats : List (List Byte)} (hmem : ∀ address < 0, mem address = 0)
    (hpats : ∀ pat ∈ pats, pat ≠ [] ∧ pat.getD 0 0 ≠ 0) : Clean false pats mem := by
  intro pat hpat _ start _ hneg hoccurs
  obtain ⟨hne, hfirst⟩ := hpats pat hpat
  have hbyte : mem (start + 0) = pat.getD 0 0 := hoccurs 0 (List.length_pos_iff.mpr hne)
  rw [add_zero, hmem start hneg] at hbyte
  exact hfirst hbyte.symm

theorem patsOf_eq (hcalls : history.map Prod.snd = calls.reverse) :
    Structure.patsOf history = calls.map Call.pat := by
  have hmap : (history.map fun entry ↦ entry.2.pat) = (history.map Prod.snd).map Call.pat := by
    rw [List.map_map]
    rfl
  rw [Structure.patsOf, hmap, hcalls, List.map_reverse, List.reverse_reverse]

/-- The external ids that the structure holds, from the calls. -/
theorem holds_iff (hrep : dfc.Represents history) (hcalls : history.map Prod.snd = calls.reverse)
    (pat : List Byte) (sid : BitVec 32) :
    dfc.Holds pat sid ↔
      ∃ call ∈ calls, call.sid = sid ∧ representative (calls.map Call.pat) call.pat = pat := by
  have hmem (call : Call) : call ∈ calls ↔ ∃ entry ∈ history, entry.2 = call := by
    rw [← List.mem_reverse, ← hcalls, List.mem_map]
  rw [hrep.holds, patsOf_eq hcalls]
  simp only [hmem]
  constructor
  · rintro ⟨entry, hentry, h⟩
    exact ⟨entry.2, ⟨entry, hentry, rfl⟩, h⟩
  · rintro ⟨-, ⟨entry, hentry, rfl⟩, h⟩
    exact ⟨entry, hentry, h⟩

/-- A pattern of the structure has the bytes and the flag of a call. -/
theorem exists_call (hsmall : dfc.Small history) (hcalls : history.map Prod.snd = calls.reverse)
    (hp : p ∈ dfc.patterns) : ∃ call ∈ calls, call.pat = p.casepatrn ∧ call.nocase = p.nocase := by
  have hshape := hsmall.shapes.subset (List.mem_map_of_mem hp)
  obtain ⟨entry, hentry, heq⟩ := List.mem_map.mp hshape
  obtain ⟨hpat, hnocase⟩ := Prod.mk.inj heq
  have hmem : entry.2 ∈ calls.reverse := hcalls ▸ List.mem_map_of_mem hentry
  exact ⟨entry.2, List.mem_reverse.mp hmem, hpat, hnocase⟩

/-- If no pattern begins in front of the payload, exactly the patterns in it are reported. -/
theorem mem_search_iff (hrep : dfc.Represents history) (hsmall : dfc.Small history)
    (hcalls : history.map Prod.snd = calls.reverse) (hnocase : ∀ call ∈ calls, call.nocase = nocase)
    (hclean : Clean nocase (calls.map Call.pat) mem) (hp : p ∈ dfc.patterns) :
    p ∈ (build dfc.patterns).search mem buflen ↔ InPayload nocase p.casepatrn mem buflen := by
  obtain ⟨call, hcall, hpat, hflag⟩ := exists_call hsmall hcalls hp
  have hn : 0 < p.n := List.length_pos_iff.mpr (hrep.short p hp).ne_nil
  have hoccurs (start : ℤ) : p.OccursAt mem start ↔ Occurs nocase p.casepatrn mem start := by
    rw [← hnocase call hcall, hflag]
    rfl
  rw [← List.count_pos_iff, count_search_eq_card hrep.valid.nodup hp hn, Finset.card_pos]
  constructor
  · rintro ⟨start, hstart⟩
    obtain ⟨hrange, hoccurs', hend, hfront⟩ := Finset.mem_filter.mp hstart
    have hlow := (Finset.mem_Ico.mp hrange).1
    refine ⟨start, ?_, hend, (hoccurs start).mp hoccurs'⟩
    by_contra hneg
    have hcrowded := (hfront.resolve_left hneg).2
    exact hclean p.casepatrn (hpat ▸ List.mem_map_of_mem hcall) hcrowded.1 start hlow
      (not_le.mp hneg) ((hoccurs start).mp hoccurs')
  · rintro ⟨start, hstart, hend, hoccurs'⟩
    have hlength : (p.n : ℤ) = p.casepatrn.length := rfl
    refine ⟨start, Finset.mem_filter.mpr ⟨Finset.mem_Ico.mpr ⟨by omega, by omega⟩, ?_⟩⟩
    exact ⟨(hoccurs start).mpr hoccurs', hend, .inl hstart⟩

end Reports

/-- Calls that the structure has place for all succeed. A call's external id is held by the first
pattern that its pattern is alike, and the search reports each pattern of the structure once for
each place where it lies in the payload. -/
theorem search_reports_each_place_once {calls : List Call} (h : Admissible calls) :
    ∃ dfc compiled, prepare calls = some (dfc, compiled) ∧
      (∀ pat sid, dfc.Holds pat sid ↔
        ∃ call ∈ calls, call.sid = sid ∧ representative (calls.map Call.pat) call.pat = pat) ∧
      ∀ mem buflen p, (compiled.search mem buflen).count p =
        if p ∈ dfc.patterns then
          ((Finset.Ico (-3 : ℤ) buflen).filter (Reported dfc.patterns p mem buflen)).card
        else 0 := by
  obtain ⟨history, dfc, hprepare, hrep, -, hcalls⟩ := h.exists_prepare
  refine ⟨dfc, build dfc.patterns, hprepare, holds_iff hrep hcalls, fun mem buflen p ↦ ?_⟩
  split_ifs with hp
  · have hn : 0 < p.n := List.length_pos_iff.mpr (hrep.short p hp).ne_nil
    exact count_search_eq_card hrep.valid.nodup hp hn buflen
  · exact List.count_eq_zero_of_not_mem fun hmem ↦ hp (mem_of_mem_search hrep.valid.nodup hmem)

/-- Two patterns that agree up to a zero byte, each with an external id of its own. -/
def alikeCalls : List Call :=
  [⟨fun _ _ ↦ 0, [65, 0, 66], false, 0⟩, ⟨fun _ _ ↦ 0, [65, 0, 67], false, 1⟩]

theorem admissible_alikeCalls : Admissible alikeCalls := by
  apply Admissible.of_length_le _ (by decide)
  intro call hcall
  simp only [alikeCalls, List.mem_cons, List.not_mem_nil, or_false] at hcall
  rcases hcall with rfl | rfl
  · exact ⟨by decide, by decide⟩
  · exact ⟨by decide, by decide⟩

theorem search_reports_first_alike : Admissible alikeCalls ∧
    ∃ dfc compiled, prepare alikeCalls = some (dfc, compiled) ∧ dfc.Holds [65, 0, 66] 1 ∧
      ∀ mem buflen p, p ∉ dfc.patterns → (compiled.search mem buflen).count p = 0 := by
  refine ⟨admissible_alikeCalls, ?_⟩
  obtain ⟨dfc, compiled, hprepare, hholds, hcount⟩ :=
    search_reports_each_place_once admissible_alikeCalls
  refine ⟨dfc, compiled, hprepare, (hholds _ _).mpr ⟨_, List.mem_cons_of_mem _ List.mem_cons_self,
    rfl, by decide⟩, fun mem buflen p hp ↦ ?_⟩
  rw [hcount, if_neg hp]

/-- If the case of all patterns matters or of none, and no pattern begins in front of the payload,
an external id is reported exactly if the pattern that stands for one of its own is in it. -/
theorem sid_reported_iff {calls : List Call} (h : Admissible calls) {nocase : Bool}
    (hnocase : ∀ call ∈ calls, call.nocase = nocase) {mem : ℤ → Byte}
    (hclean : Clean nocase (calls.map Call.pat) mem) :
    ∃ dfc compiled, prepare calls = some (dfc, compiled) ∧ ∀ buflen sid,
      (∃ p ∈ compiled.search mem buflen, sid ∈ p.sids) ↔
        ∃ call ∈ calls, call.sid = sid ∧
          InPayload nocase (representative (calls.map Call.pat) call.pat) mem buflen := by
  obtain ⟨history, dfc, hprepare, hrep, hsmall, hcalls⟩ := h.exists_prepare
  refine ⟨dfc, build dfc.patterns, hprepare, fun buflen sid ↦ ?_⟩
  constructor
  · rintro ⟨p, hsearch, hsid⟩
    have hp := mem_of_mem_search hrep.valid.nodup hsearch
    obtain ⟨call, hcall, hcallSid, hpat⟩ := (holds_iff hrep hcalls _ _).mp ⟨p, hp, rfl, hsid⟩
    refine ⟨call, hcall, hcallSid, ?_⟩
    rw [hpat]
    exact (mem_search_iff hrep hsmall hcalls hnocase hclean hp).mp hsearch
  · rintro ⟨call, hcall, hsid, hpayload⟩
    obtain ⟨p, hp, hpat, hpsid⟩ := (holds_iff hrep hcalls _ sid).mpr ⟨call, hcall, hsid, rfl⟩
    refine ⟨p, (mem_search_iff hrep hsmall hcalls hnocase hclean hp).mpr ?_, hpsid⟩
    rw [hpat]
    exact hpayload

/-- A payload that is the second of the two patterns. -/
def secondAlike (address : ℤ) : Byte := if address = 0 then 65 else if address = 2 then 67 else 0

theorem sid_of_second_not_reported :
    (∀ call ∈ alikeCalls, call.nocase = false) ∧
      Clean false (alikeCalls.map Call.pat) secondAlike ∧
      ∃ dfc compiled, prepare alikeCalls = some (dfc, compiled) ∧
        ¬ ∃ p ∈ compiled.search secondAlike 3, 1 ∈ p.sids := by
  have hnocase : ∀ call ∈ alikeCalls, call.nocase = false := by simp [alikeCalls]
  have hclean : Clean false (alikeCalls.map Call.pat) secondAlike := by
    apply clean_of_zero_before _ (by decide)
    intro address hneg
    rw [secondAlike, if_neg (by omega), if_neg (by omega)]
  refine ⟨hnocase, hclean, ?_⟩
  obtain ⟨dfc, compiled, hprepare, hsid⟩ := sid_reported_iff admissible_alikeCalls hnocase hclean
  refine ⟨dfc, compiled, hprepare, fun hreported ↦ ?_⟩
  obtain ⟨call, hcall, hcallSid, start, -, -, hoccurs⟩ := (hsid 3 1).mp hreported
  simp only [alikeCalls, List.mem_cons, List.not_mem_nil, or_false] at hcall
  rcases hcall with rfl | rfl
  · exact absurd hcallSid (by decide)
  · have hrep : representative (alikeCalls.map Call.pat) [65, 0, 67] = [65, 0, 66] := by decide
    rw [hrep] at hoccurs
    have hthird : secondAlike (start + 2) = 66 := hoccurs 2 (by decide)
    unfold secondAlike at hthird
    split_ifs at hthird <;> exact absurd hthird (by decide)

/-! ## The two evaluations -/

/-- A packet, and what lies around it. -/
structure Packet where
  bytes : List Byte
  around : ℤ → Byte

/-- The bytes from the beginning of a packet on, and before it. -/
def Packet.memory (pkt : Packet) (address : ℤ) : Byte :=
  if 0 ≤ address ∧ address < pkt.bytes.length then pkt.bytes.getD address.toNat 0
  else pkt.around address

/-- The calls of `evaluate_dfc`. The external id is `pattern_id`. -/
def virusCalls (heap : ℕ → ℕ → ℕ → Byte) (virusVec : List (List Byte)) : List Call :=
  virusVec.zipIdx.map fun (virus, patternId) ↦
    ⟨heap patternId, virus, false, BitVec.ofNat 32 patternId⟩

/-- `match_count` after the calls of `dfc_ev_handler`. -/
def matchCount (reports : List Pattern) : ℕ := reports.foldl (fun _ p ↦ p.sids.length) 0

/-- `evaluate_dfc`: the number of packets that matched. -/
def evaluateDfc (heap : ℕ → ℕ → ℕ → Byte) (virusVec : List (List Byte)) (pktVec : List Packet) :
    Option ℕ :=
  (prepare (virusCalls heap virusVec)).map fun (_, dfc) ↦
    pktVec.countP fun pkt ↦ 0 < matchCount (dfc.search pkt.memory pkt.bytes.length)

/-- A digit of `%02x`. -/
def lowerDigit (digit : Fin 16) : Byte :=
  if digit.val < 10 then BitVec.ofNat 8 (48 + digit.val) else BitVec.ofNat 8 (87 + digit.val)

/-- The expression `hexbuf` for a byte array. -/
def hexbuf (bytes : List Byte) : List Byte :=
  bytes.flatMap fun c ↦ [char '\\', char 'x', lowerDigit (highDigit c), lowerDigit (lowDigit c)]

/-- The value of a hexadecimal digit in an expression. -/
def hexValue (c : Byte) : Option ℕ :=
  if 48 ≤ c.toNat ∧ c.toNat ≤ 57 then some (c.toNat - 48)
  else if 65 ≤ c.toNat ∧ c.toNat ≤ 70 then some (c.toNat - 55)
  else if 97 ≤ c.toNat ∧ c.toNat ≤ 102 then some (c.toNat - 87)
  else none

/-- The bytes for which an expression stands that consists of `\x` escapes with two digits. -/
def readEscapes : (expr : List Byte) → Option (List Byte)
  | [] => some []
  | backslash :: x :: high :: low :: expr =>
    if backslash = char '\\' ∧ x = char 'x' then
      match hexValue high, hexValue low, readEscapes expr with
      | some high, some low, some literal => some (BitVec.ofNat 8 (16 * high + low) :: literal)
      | _, _, _ => none
    else none
  | _ => none

/-- A regular expression engine: whether `hs_compile_multi` succeeds, and how often `hs_scan` calls
the handler. -/
structure Engine where
  compiles : (exprs : List (List Byte)) → Bool
  scan : (exprs : List (List Byte)) → (data : List Byte) → ℕ

/-- Expressions that stand for bytes, within the limits of the engine. -/
structure Literals (exprs literals : List (List Byte)) : Prop where
  read : exprs.mapM readEscapes = some literals
  ne_nil : exprs ≠ []
  nonempty : ∀ literal ∈ literals, literal ≠ []
  length_le : ∀ expr ∈ exprs, expr.length ≤ 16000
  few : exprs.length ≤ 8000000

/-- What the engine promises for such expressions. -/
structure Engine.FindsLiterals (hs : Engine) : Prop where
  compiles : ∀ exprs literals, Literals exprs literals → hs.compiles exprs
  scan : ∀ exprs literals data, Literals exprs literals →
    (0 < hs.scan exprs data ↔ ∃ literal ∈ literals, literal <:+: data)

/-- `evaluate_hyperscan`: the number of packets that matched. -/
def evaluateHyperscan (hs : Engine) (virusVec : List (List Byte)) (pktVec : List Packet) :
    Option ℕ :=
  let virusArr := virusVec.map hexbuf
  if hs.compiles virusArr then some (pktVec.countP fun pkt ↦ 0 < hs.scan virusArr pkt.bytes)
  else none

section Evaluations

variable {heap : ℕ → ℕ → ℕ → Byte} {virusVec : List (List Byte)} {pktVec : List Packet}

/-- The handler leaves a positive count exactly if it was called. -/
theorem matchCount_pos_iff {reports : List Pattern} (h : ∀ p ∈ reports, p.sids ≠ []) :
    0 < matchCount reports ↔ reports ≠ [] := by
  unfold matchCount
  induction reports using List.reverseRecOn with
  | nil => simp
  | append_singleton reports p _ =>
    have hp := List.length_pos_iff.mpr (h p (List.mem_append_right _ (List.mem_singleton_self p)))
    rw [List.foldl_append, List.foldl_cons, List.foldl_nil]
    exact iff_of_true hp (List.append_ne_nil_of_right_ne_nil _ (List.cons_ne_nil _ _))

theorem map_pat_virusCalls (heap : ℕ → ℕ → ℕ → Byte) (virusVec : List (List Byte)) :
    (virusCalls heap virusVec).map Call.pat = virusVec := by
  rw [virusCalls, List.map_map]
  exact List.zipIdx_map_fst 0 virusVec

theorem Admissible.short_virus (h : Admissible (virusCalls heap virusVec)) {virus : List Byte}
    (hvirus : virus ∈ virusVec) : Short virus := by
  rw [← map_pat_virusCalls heap virusVec] at hvirus
  obtain ⟨call, hcall, rfl⟩ := List.mem_map.mp hvirus
  exact h.short call hcall

/-- Bytes that lie in the payload of a packet are a part of it. -/
theorem inPayload_iff (pat : List Byte) (pkt : Packet) :
    InPayload false pat pkt.memory pkt.bytes.length ↔ pat <:+: pkt.bytes := by
  have hbyte (k i : ℕ) (hi : i < pat.length) (hend : pat.length + k ≤ pkt.bytes.length) :
      pkt.memory ((k : ℤ) + i) = pat.getD i 0 ↔ pkt.bytes[i + k]? = some pat[i] := by
    have hlt : i + k < pkt.bytes.length := by omega
    have hnat : ((k : ℤ) + i).toNat = i + k := by omega
    rw [Packet.memory, if_pos ⟨by omega, by omega⟩, hnat, List.getD_eq_getElem _ _ hlt,
      List.getD_eq_getElem _ _ hi, List.getElem?_eq_getElem hlt, Option.some_inj]
  rw [List.infix_iff_getElem?]
  constructor
  · rintro ⟨start, hstart, hend, hoccurs⟩
    obtain ⟨k, rfl⟩ := Int.eq_ofNat_of_zero_le hstart
    have hend' : pat.length + k ≤ pkt.bytes.length := by omega
    exact ⟨k, hend', fun i hi ↦ (hbyte k i hi hend').mp (hoccurs i hi)⟩
  · rintro ⟨k, hend, hsame⟩
    exact ⟨k, by omega, by omega, fun i hi ↦ (hbyte k i hi hend).mpr (hsame i hi)⟩

/-- What `evaluate_dfc` counts. -/
theorem evaluateDfc_eq_countP (h : Admissible (virusCalls heap virusVec))
    (hclean : ∀ pkt ∈ pktVec, Clean false virusVec pkt.memory) :
    evaluateDfc heap virusVec pktVec = some (pktVec.countP fun pkt ↦
      ∃ virus ∈ virusVec, representative virusVec virus <:+: pkt.bytes) := by
  obtain ⟨history, dfc, hprepare, hrep, hsmall, hcalls⟩ := h.exists_prepare
  have hpats := map_pat_virusCalls heap virusVec
  have hnocase : ∀ call ∈ virusCalls heap virusVec, call.nocase = false := by
    intro call hcall
    obtain ⟨entry, -, rfl⟩ := List.mem_map.mp hcall
    rfl
  rw [evaluateDfc, hprepare, Option.map_some, Option.some_inj]
  apply List.countP_congr
  intro pkt hpkt
  have hclean' : Clean false ((virusCalls heap virusVec).map Call.pat) pkt.memory := by
    rw [hpats]
    exact hclean pkt hpkt
  have hsids : ∀ p ∈ (build dfc.patterns).search pkt.memory pkt.bytes.length, p.sids ≠ [] :=
    fun p hp ↦ hrep.valid.sids p (mem_of_mem_search hrep.valid.nodup hp)
  rw [decide_eq_true_iff, decide_eq_true_iff, matchCount_pos_iff hsids]
  have hstored := hrep.stored_iff
  rw [patsOf_eq hcalls, hpats] at hstored
  constructor
  · intro hne
    obtain ⟨p, hsearch⟩ := List.exists_mem_of_ne_nil _ hne
    have hp := mem_of_mem_search hrep.valid.nodup hsearch
    obtain ⟨virus, hvirus, hpat⟩ := (hstored p.casepatrn).mp ⟨p, hp, rfl⟩
    refine ⟨virus, hvirus, ?_⟩
    rw [hpat, ← inPayload_iff]
    exact (mem_search_iff hrep hsmall hcalls hnocase hclean' hp).mp hsearch
  · rintro ⟨virus, hvirus, hinfix⟩
    obtain ⟨p, hp, hpat⟩ := (hstored _).mpr ⟨virus, hvirus, rfl⟩
    apply List.ne_nil_of_mem ((mem_search_iff hrep hsmall hcalls hnocase hclean' hp).mpr _)
    rw [inPayload_iff, hpat]
    exact hinfix

theorem hexValue_lowerDigit (digit : Fin 16) : hexValue (lowerDigit digit) = some digit.val := by
  revert digit
  decide

/-- An expression stands for the bytes for which it was written. -/
theorem readEscapes_hexbuf (bytes : List Byte) : readEscapes (hexbuf bytes) = some bytes := by
  induction bytes with
  | nil => rfl
  | cons c bytes ih =>
    have hc : BitVec.ofNat 8 (16 * (highDigit c).val + (lowDigit c).val) = c := by
      rw [highDigit, lowDigit, Nat.div_add_mod, BitVec.ofNat_toNat, BitVec.setWidth_eq]
    change readEscapes (_ :: _ :: _ :: _ :: hexbuf bytes) = _
    rw [readEscapes, if_pos ⟨rfl, rfl⟩, hexValue_lowerDigit, hexValue_lowerDigit, ih]
    simp only [hc]

theorem length_hexbuf (bytes : List Byte) : (hexbuf bytes).length = 4 * bytes.length := by
  induction bytes with
  | nil => rfl
  | cons c bytes ih =>
    change (hexbuf bytes).length + 4 = 4 * (bytes.length + 1)
    omega

/-- The expressions of `evaluate_hyperscan` stand for the viruses. -/
theorem literals_hexbuf (h : Admissible (virusCalls heap virusVec)) (hne : virusVec ≠ []) :
    Literals (virusVec.map hexbuf) virusVec where
  read := by
    rw [List.mapM_map]
    exact (mapM_eq_some fun virus _ ↦ readEscapes_hexbuf virus).trans (by rw [List.map_id'])
  ne_nil := by simpa using hne
  nonempty _ hvirus := (h.short_virus hvirus).ne_nil
  length_le expr hexpr := by
    obtain ⟨virus, hvirus, rfl⟩ := List.mem_map.mp hexpr
    have hlength := (h.short_virus hvirus).length_le
    rw [length_hexbuf]
    omega
  few := by
    have hlength := h.length_lt
    rw [virusCalls, List.length_map, List.length_zipIdx] at hlength
    rw [List.length_map]
    omega

/-- What `evaluate_hyperscan` counts. -/
theorem evaluateHyperscan_eq_countP {hs : Engine} (hfinds : hs.FindsLiterals)
    (h : Literals (virusVec.map hexbuf) virusVec) :
    evaluateHyperscan hs virusVec pktVec =
      some (pktVec.countP fun pkt ↦ ∃ virus ∈ virusVec, virus <:+: pkt.bytes) := by
  rw [evaluateHyperscan, if_pos (hfinds.compiles _ _ h), Option.some_inj]
  apply List.countP_congr
  intro pkt _
  rw [decide_eq_true_iff, decide_eq_true_iff, hfinds.scan _ _ _ h]

/-- Of two counts where one condition implies the other, the smaller one is equal only if the
conditions are. -/
theorem countP_eq_countP_iff {α : Type} {p q : α → Bool} {l : List α}
    (h : ∀ x ∈ l, p x → q x) : l.countP p = l.countP q ↔ ∀ x ∈ l, q x → p x := by
  induction l with
  | nil => simp
  | cons x l ih =>
    have htail : ∀ y ∈ l, p y → q y := fun y hy ↦ h y (List.mem_cons_of_mem _ hy)
    have hle := List.countP_mono_left htail
    have hhead := h x List.mem_cons_self
    rw [List.forall_mem_cons, ← ih htail, List.countP_cons, List.countP_cons]
    by_cases hp : p x
    · simp [hp, hhead hp]
    · by_cases hq : q x
      · have hne : l.countP p + 0 ≠ l.countP q + 1 := by omega
        simpa [hp, hq] using hne
      · simp [hp, hq]

end Evaluations

/-- An engine that looks for each literal. -/
def literalEngine : Engine where
  compiles _ := true
  scan exprs data := (exprs.filterMap readEscapes).countP fun literal ↦ literal <:+: data

theorem literalEngine_findsLiterals : literalEngine.FindsLiterals where
  compiles _ _ _ := rfl
  scan exprs literals data h := by
    have hmap : exprs.filterMap readEscapes = literals := by
      have hread := h.read
      clear h
      induction exprs generalizing literals with
      | nil =>
        obtain rfl := Option.some.inj hread
        rfl
      | cons expr exprs ih =>
        simp only [List.mapM_cons, Option.bind_eq_bind, Option.bind_eq_some_iff] at hread
        obtain ⟨literal, hexpr, rest, hrest, heq⟩ := hread
        obtain rfl := Option.some.inj heq
        rw [List.filterMap_cons_some hexpr, ih rest hrest]
    simp [literalEngine, hmap]

end Systemish.Hyperscan.Dfc
