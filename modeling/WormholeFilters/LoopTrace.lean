import WormholeFilters.PmRefinement

/-! The passes of the insertion's `while` loop, one by one. Nothing is assumed of the
array: it may be one that a crash or a stray write left behind. -/
namespace WormholeFilters

open RingTable

structure LoopHead (σ : Type) where
  state : σ
  currBuckIdx : Nat
  currTagIdx : Nat

def loopHeads (A : Access σ) (initBuckIdx : Nat) : Nat → σ → Nat → Nat → List (LoopHead σ)
  | 0, s, currBuckIdx, currTagIdx => [⟨s, currBuckIdx, currTagIdx⟩]
  | fuel + 1, s, currBuckIdx, currTagIdx => ⟨s, currBuckIdx, currTagIdx⟩ ::
    if maxProb ≤ wrapSub 64 currBuckIdx initBuckIdx then
      match findCadi (A.readTag s) currBuckIdx with
      | none => []
      | some (prob, cadiTagIdx, cadiTag) =>
        loopHeads A initBuckIdx fuel
          (A.moveTag s currBuckIdx currTagIdx ((cadiTag &&& fptMask) ||| ((cadiTag &&& disMask) + prob)))
          (wrapSub 32 currBuckIdx prob) cadiTagIdx
    else []

/-- Those of one call of `insert`; none when the scan finds no empty slot. -/
def insertHeads (A : Access σ) (numBuckets initBuckIdx : Nat) (s : σ) : List (LoopHead σ) :=
  match scan (A.readTag s) (initBuckIdx + numBuckets) numBuckets initBuckIdx with
  | none => []
  | some (currBuckIdx, currTagIdx) => loopHeads A initBuckIdx currBuckIdx s currBuckIdx currTagIdx

def Body (A : Access σ) (initBuckIdx : Nat) (before after : LoopHead σ) : Prop :=
  maxProb ≤ wrapSub 64 before.currBuckIdx initBuckIdx ∧ ∃ prob cadiTag,
    findCadi (A.readTag before.state) before.currBuckIdx = some (prob, after.currTagIdx, cadiTag) ∧
    after.currBuckIdx = wrapSub 32 before.currBuckIdx prob ∧
    after.state = A.moveTag before.state before.currBuckIdx before.currTagIdx
      ((cadiTag &&& fptMask) ||| ((cadiTag &&& disMask) + prob))

/-- What a pass does: the distance goes down and stays between 1 and `ring - 1`, and the
slot written receives the fingerprint and the home of the slot that is written next. -/
structure Pass (A : Access σ) (ring initBuckIdx : Nat) (before after : LoopHead σ) : Prop where
  far : 16 ≤ before.currBuckIdx - initBuckIdx
  most : before.currBuckIdx - initBuckIdx ≤ ring - 1
  decreases : after.currBuckIdx < before.currBuckIdx
  least : 1 ≤ after.currBuckIdx - initBuckIdx
  slot : after.currTagIdx < 4
  occupied : A.readTag before.state after.currBuckIdx after.currTagIdx ≠ 0
  copied : ∃ tag < 2 ^ 16,
    after.state = A.moveTag before.state before.currBuckIdx before.currTagIdx tag ∧
    tag >>> 4 = A.readTag before.state after.currBuckIdx after.currTagIdx >>> 4 ∧
    (before.currBuckIdx : ZMod ring) - (tag &&& disMask : Nat) = (after.currBuckIdx : ZMod ring) -
      (A.readTag before.state after.currBuckIdx after.currTagIdx &&& disMask : Nat)

section Loop

variable {σ : Type} {A : Access σ} {initBuckIdx : Nat} {s : σ}

theorem loopHeads_eq_cons (A : Access σ) (initBuckIdx fuel : Nat) (s : σ) (c j : Nat) :
    ∃ rest, loopHeads A initBuckIdx fuel s c j = ⟨s, c, j⟩ :: rest := by
  cases fuel with
  | zero => exact ⟨[], rfl⟩
  | succ fuel => exact ⟨_, rfl⟩

theorem loopHeads_body (A : Access σ) (initBuckIdx fuel : Nat) (s : σ) (c j : Nat) :
    (loopHeads A initBuckIdx fuel s c j).IsChain (Body A initBuckIdx) := by
  induction fuel generalizing s c j with
  | zero => exact List.IsChain.singleton _
  | succ fuel ih =>
    rw [loopHeads]
    split
    · rename_i far
      cases found : findCadi (A.readTag s) c with
      | none => exact List.IsChain.singleton _
      | some cadi =>
        obtain ⟨prob, k, v⟩ := cadi
        have later := ih (A.moveTag s c j ((v &&& fptMask) ||| ((v &&& disMask) + prob))) (wrapSub 32 c prob) k
        obtain ⟨rest, heads⟩ := loopHeads_eq_cons A initBuckIdx fuel
          (A.moveTag s c j ((v &&& fptMask) ||| ((v &&& disMask) + prob))) (wrapSub 32 c prob) k
        simp only [heads] at later ⊢
        exact List.isChain_cons_cons.mpr ⟨⟨far, prob, v, found, rfl, rfl⟩, later⟩
    · exact List.IsChain.singleton _

/-- The loop ends where its condition fails, where it finds no tag to move, or where the
fuel is used up. -/
theorem displace_last (A : Access σ) (initBuckIdx fuel : Nat) (s : σ) (c j : Nat) :
    ∃ last ∈ (loopHeads A initBuckIdx fuel s c j).getLast?,
      (displace A initBuckIdx fuel s c j = (last.state, some (last.currBuckIdx, last.currTagIdx)) ∧
        (wrapSub 64 last.currBuckIdx initBuckIdx < maxProb ∨
          (loopHeads A initBuckIdx fuel s c j).length = fuel + 1)) ∨
      (displace A initBuckIdx fuel s c j = (last.state, none) ∧
        maxProb ≤ wrapSub 64 last.currBuckIdx initBuckIdx ∧
        findCadi (A.readTag last.state) last.currBuckIdx = none) := by
  induction fuel generalizing s c j with
  | zero => exact ⟨⟨s, c, j⟩, rfl, Or.inl ⟨rfl, Or.inr rfl⟩⟩
  | succ fuel ih =>
    rw [loopHeads, displace]
    by_cases far : maxProb ≤ wrapSub 64 c initBuckIdx
    · simp only [if_pos far]
      cases found : findCadi (A.readTag s) c with
      | none => exact ⟨⟨s, c, j⟩, rfl, Or.inr ⟨rfl, far, found⟩⟩
      | some cadi =>
        obtain ⟨prob, k, v⟩ := cadi
        obtain ⟨last, member, outcome⟩ := ih
          (A.moveTag s c j ((v &&& fptMask) ||| ((v &&& disMask) + prob))) (wrapSub 32 c prob) k
        refine ⟨last, ?_, ?_⟩
        · rw [List.getLast?_cons]
          simp only [Option.mem_def] at member ⊢
          rw [member]
          rfl
        · rw [List.length_cons, Nat.add_right_cancel_iff]
          exact outcome
    · simp only [if_neg far]
      exact ⟨⟨s, c, j⟩, rfl, Or.inl ⟨rfl, Or.inl (Nat.lt_of_not_le far)⟩⟩

variable {ring : Nat} {Ok : σ → Prop}

/-- Every pass lowers `curr_buck_idx`, so its start bounds the number of passes. -/
theorem passes_le {head last : LoopHead σ} {heads : List (LoopHead σ)}
    (run : (head :: heads).IsChain (Pass A ring initBuckIdx)) (final : last ∈ (head :: heads).getLast?) :
    last.currBuckIdx + heads.length ≤ head.currBuckIdx := by
  induction heads generalizing head with
  | nil =>
    obtain rfl : head = last := by simpa using final
    exact Nat.le_refl _
  | cons next heads ih =>
    obtain ⟨pass, later⟩ := List.isChain_cons_cons.mp run
    have := pass.decreases
    have := ih later (by rwa [List.getLast?_cons_cons] at final)
    rw [List.length_cons]
    omega

variable [NeZero ring]

/-- What holds at every evaluation of the condition: the buckets between home and the
current one are full, and all that was stored is stored outside the current slot. -/
structure Carries (A : Access σ) (ring : Nat) [NeZero ring] (Ok : σ → Prop) (initBuckIdx : Nat) (start : σ)
    (head : LoopHead σ) : Prop where
  ok : Ok head.state
  above : initBuckIdx ≤ head.currBuckIdx
  below : head.currBuckIdx < initBuckIdx + ring
  slot : head.currTagIdx < 4
  full : ∀ i < head.currBuckIdx - initBuckIdx, Full (table A ring head.state) ((initBuckIdx : ZMod ring) + i)
  kept : entriesExcept (table A ring head.state) ((head.currBuckIdx : ZMod ring), ⟨head.currTagIdx, slot⟩) =
    entries (table A ring start)

theorem Carries.body (lawful : Lawful A ring Ok) (noWrap : initBuckIdx + ring ≤ 2 ^ 32) {start : σ}
    {before after : LoopHead σ} (carries : Carries A ring Ok initBuckIdx start before)
    (body : Body A initBuckIdx before after) :
    Carries A ring Ok initBuckIdx start after ∧ Pass A ring initBuckIdx before after := by
  obtain ⟨s, c, j⟩ := before
  obtain ⟨s', c', j'⟩ := after
  obtain ⟨ok, above, below, slot, full, kept⟩ := carries
  obtain ⟨far, prob, v, found, position, state⟩ := body
  simp only at ok above below slot full kept far found position state
  obtain ⟨t, rfl⟩ := Nat.exists_eq_add_of_le above
  rw [wrapSub_add_left] at far
  rw [Nat.add_sub_cancel_left] at full
  obtain ⟨i, k, rfl, pos, rfl, close, back, value, tag, cell, moved, full'⟩ :=
    pass_spec lawful ⟨j, slot⟩ ok (by omega) (by omega) far full found
  rw [tag] at state
  rw [back] at position
  subst position state
  have nonzero : A.readTag s (initBuckIdx + i) k ≠ 0 := by
    rw [table_offset lawful (by omega), ← value] at cell
    rw [← value]
    intro zero
    simp [decode, zero] at cell
  have bound : v < 2 ^ 16 := value ▸ lawful.read_lt ok
  rw [maxProb] at far
  constructor
  · refine ⟨lawful.move_ok ok, Nat.le_add_right _ _, by simp only; omega, k.isLt, ?_, ?_⟩
    · simp only [Nat.add_sub_cancel_left]
      exact full'
    · simp only
      rw [moved, ← kept, Nat.cast_add initBuckIdx (i + prob), Nat.cast_add initBuckIdx i]
      refine entriesExcept_copy _ (fun same => ?_) ?_
      · have := offset_inj (by omega) (by omega) (Prod.mk.inj same).1
        omega
      · rw [cell, entry_some, entry_some]
        congr 2
        push_cast
        abel
  · refine ⟨by simp only; omega, by simp only; omega, by simp only; omega, by simp only; omega, k.isLt, nonzero,
      v + prob, by omega, rfl, ?_, ?_⟩
    · simp only
      rw [← value, Nat.shiftRight_eq_div_pow, Nat.shiftRight_eq_div_pow]
      omega
    · simp only
      rw [← value, and_disMask, and_disMask, show (v + prob) % 16 = v % 16 + prob by omega]
      push_cast
      abel

/-- The first evaluation, at the first free slot after home. -/
theorem carries_start (lawful : Lawful A ring Ok) (ok : Ok s) {numBuckets c j : Nat}
    (noWrap : initBuckIdx + numBuckets < 2 ^ 32)
    (found : scan (A.readTag s) (initBuckIdx + numBuckets) numBuckets initBuckIdx = some (c, j)) :
    Carries A ring Ok initBuckIdx s ⟨s, c, j⟩ := by
  obtain ⟨t, slot, rfl, rfl, _, first⟩ := scan_firstFree lawful noWrap found
  have inRing := first.inRing
  refine ⟨ok, Nat.le_add_right _ _, by simp only; omega, slot.isLt, ?_, ?_⟩
  · simp only [Nat.add_sub_cancel_left]
    exact first.before
  · simp only [Nat.cast_add]
    exact entriesExcept_free first.free

theorem Carries.entries_le {start : σ} {head : LoopHead σ} (carries : Carries A ring Ok initBuckIdx start head) :
    entries (table A ring start) ≤ entries (table A ring head.state) := by
  rw [← carries.kept, entries_split (table A ring head.state)
    ((head.currBuckIdx : ZMod ring), ⟨head.currTagIdx, carries.slot⟩)]
  exact Multiset.le_add_left _ _

/-- Every pass of a run is as described, and everything stored stays stored. -/
theorem carries_run (lawful : Lawful A ring Ok) (noWrap : initBuckIdx + ring ≤ 2 ^ 32) {start : σ}
    {head : LoopHead σ} {heads : List (LoopHead σ)} (run : (head :: heads).IsChain (Body A initBuckIdx))
    (carries : Carries A ring Ok initBuckIdx start head) :
    (∀ h ∈ head :: heads, Carries A ring Ok initBuckIdx start h) ∧
      (head :: heads).IsChain (Pass A ring initBuckIdx) := by
  have all := run.induction (Carries A ring Ok initBuckIdx start) _
    (fun _ _ body before => (before.body lawful noWrap body).1) (fun _ => carries)
  exact ⟨all, run.imp_of_mem_imp fun before after member _ body => ((all before member).body lawful noWrap body).2⟩

/-- Slots that no pass writes to are the same at the end. -/
theorem passes_frame (lawful : Lawful A ring Ok) (noWrap : initBuckIdx + ring ≤ 2 ^ 32) {start : σ}
    {head last : LoopHead σ} {heads : List (LoopHead σ)}
    (run : (head :: heads).IsChain (Pass A ring initBuckIdx))
    (carries : ∀ h ∈ head :: heads, Carries A ring Ok initBuckIdx start h)
    (final : last ∈ (head :: heads).getLast?) {b j : Nat} (index : b < 2 ^ 32) (slot : j < 4)
    (unwritten : ∀ h ∈ (head :: heads).dropLast, ¬ (b % ring = h.currBuckIdx % ring ∧ j = h.currTagIdx)) :
    A.readTag last.state b j = A.readTag head.state b j := by
  induction heads generalizing head with
  | nil =>
    obtain rfl : head = last := by simpa using final
    rfl
  | cons next heads ih =>
    obtain ⟨pass, later⟩ := List.isChain_cons_cons.mp run
    obtain ⟨tag, bound, state, -, -⟩ := pass.copied
    have here := carries head List.mem_cons_self
    have below := here.below
    rw [List.getLast?_cons_cons] at final
    rw [ih later (fun h member => carries h (List.mem_cons_of_mem _ member)) final
      (fun h member => unwritten h (List.mem_cons_of_mem _ member)), state,
      lawful.read_move here.ok (by omega) index here.slot slot bound,
      if_neg (unwritten head List.mem_cons_self)]

/-- The loop ends by its condition or its `return`, never for lack of fuel. -/
theorem displace_exit (lawful : Lawful A ring Ok) (noWrap : initBuckIdx + ring ≤ 2 ^ 32) {c j : Nat}
    (carries : Carries A ring Ok initBuckIdx s ⟨s, c, j⟩) :
    ∃ last ∈ (loopHeads A initBuckIdx c s c j).getLast?,
      (displace A initBuckIdx c s c j = (last.state, some (last.currBuckIdx, last.currTagIdx)) ∧
        last.currBuckIdx - initBuckIdx < 16) ∨
      (displace A initBuckIdx c s c j = (last.state, none) ∧ 16 ≤ last.currBuckIdx - initBuckIdx ∧
        findCadi (A.readTag last.state) last.currBuckIdx = none) := by
  obtain ⟨last, final, outcome⟩ := displace_last A initBuckIdx c s c j
  obtain ⟨rest, heads⟩ := loopHeads_eq_cons A initBuckIdx c s c j
  have run := loopHeads_body A initBuckIdx c s c j
  rw [heads] at run final outcome ⊢
  obtain ⟨all, passes⟩ := carries_run lawful noWrap run carries
  have above := (all last (List.mem_of_mem_getLast? final)).above
  have length : last.currBuckIdx + rest.length ≤ c := passes_le passes final
  rw [wrapSub_of_le above, maxProb] at outcome
  refine ⟨last, final, ?_⟩
  rcases outcome with ⟨ended, near | exhausted⟩ | stuck
  · exact Or.inl ⟨ended, near⟩
  · rw [List.length_cons] at exhausted
    exact Or.inl ⟨ended, by omega⟩
  · exact Or.inr stuck

end Loop

namespace Pm

variable {N : Nat} [NeZero N]

/-- The evaluations of the loop condition in a call of `insert`. -/
def heads (m : Memory N) (key : Word) : List (LoopHead (Memory N)) :=
  insertHeads (access N) N (initBuckIdx N key) m

/-- The slots the call writes to, in order: a call that fails writes to all but the last. -/
def written (m : Memory N) (key : Word) : List (Nat × Nat) :=
  (if (insert m key).1 then heads m key else (heads m key).dropLast).map fun head =>
    (head.currBuckIdx % N, head.currTagIdx)

theorem heads_nil (small : 2 * N < 2 ^ 32) {m : Memory N} {key : Word} (none : heads m key = []) :
    insert m key = (false, m) ∧ ∀ b < N, ∀ j < 4, readTag m b j ≠ 0 := by
  have home := initBuckIdx_lt (N := N) key
  cases found : scan ((access N).readTag m) (initBuckIdx N key + N) N (initBuckIdx N key) with
  | some c =>
    obtain ⟨rest, cons⟩ := loopHeads_eq_cons (access N) (initBuckIdx N key) c.1 m c.1 c.2
    simp only [heads, insertHeads, found, cons] at none
    contradiction
  | none =>
    refine ⟨insert_of_none _ found, fun b inside j slot => ?_⟩
    have occupied := scan_none (by omega) rfl found
    by_cases above : initBuckIdx N key ≤ b
    · exact occupied b above (by omega) j slot
    · have wrapped := occupied (b + N) (by omega) (by omega) j slot
      simpa only [access, readTag, Nat.add_mod_right] using wrapped

/-- A call that finds an empty slot: where it starts, what every pass does, and how it ends. -/
theorem heads_cons (small : 2 * N < 2 ^ 32) {m : Memory N} {key : Word} (some : heads m key ≠ []) :
    ∃ c j rest last, heads m key = ⟨m, c, j⟩ :: rest ∧ last ∈ (heads m key).getLast? ∧ readTag m c j = 0 ∧
      (∀ h ∈ heads m key, Carries (access N) N (fun _ => True) (initBuckIdx N key) m h) ∧
      (heads m key).IsChain (Pass (access N) N (initBuckIdx N key)) ∧
      ((last.currBuckIdx - initBuckIdx N key < 16 ∧ insert m key = (true, writeTag last.state last.currBuckIdx
          last.currTagIdx (tagOf key ||| (last.currBuckIdx - initBuckIdx N key)))) ∨
        (16 ≤ last.currBuckIdx - initBuckIdx N key ∧ findCadi (readTag last.state) last.currBuckIdx = none ∧
          insert m key = (false, last.state))) := by
  have home := initBuckIdx_lt (N := N) key
  cases found : scan ((access N).readTag m) (initBuckIdx N key + N) N (initBuckIdx N key) with
  | none => exact absurd (by simp [heads, insertHeads, found]) some
  | some first =>
    obtain ⟨c, j⟩ := first
    have start := carries_start (lawful small) trivial (by omega) found
    have unfolded : heads m key = loopHeads (access N) (initBuckIdx N key) c m c j := by
      simp only [heads, insertHeads, found]
    obtain ⟨last, final, outcome⟩ := displace_exit (lawful small) (by omega) start
    obtain ⟨rest, cons⟩ := loopHeads_eq_cons (access N) (initBuckIdx N key) c m c j
    have run := loopHeads_body (access N) (initBuckIdx N key) c m c j
    rw [cons] at run
    obtain ⟨all, passes⟩ := carries_run (lawful small) (by omega) run start
    obtain ⟨_, _, _, empty, _⟩ := scan_some (by omega) rfl found
    rw [← cons, ← unfolded] at all passes
    refine ⟨c, j, rest, last, unfolded.trans cons, unfolded ▸ final, empty, all, passes, ?_⟩
    have above := (all last (unfolded ▸ List.mem_of_mem_getLast? final)).above
    rw [insert, insert_of_some _ found]
    rcases outcome with ⟨ended, near⟩ | ⟨ended, far, stuck⟩
    · simp only [ended, wrapSub_of_le above]
      exact Or.inl ⟨near, rfl⟩
    · simp only [ended]
      exact Or.inr ⟨far, stuck, trivial⟩

theorem unwritten_kept (small : 2 * N < 2 ^ 32) (m : Memory N) (key : Word) {b j : Nat} (inside : b < N)
    (slot : j < 4) (unwritten : (b, j) ∉ written m key) : readTag (insert m key).2 b j = readTag m b j := by
  have home := initBuckIdx_lt (N := N) key
  by_cases empty : heads m key = []
  · rw [(heads_nil small empty).1]
  · obtain ⟨c, k, rest, last, cons, final, -, all, passes, outcome⟩ := heads_cons small empty
    have apart : ∀ h : LoopHead (Memory N), (h.currBuckIdx % N, h.currTagIdx) ≠ (b, j) →
        ¬ (b % N = h.currBuckIdx % N ∧ j = h.currTagIdx) := by
      rintro h differ ⟨bucket, rfl⟩
      rw [Nat.mod_eq_of_lt inside] at bucket
      exact differ (by rw [bucket])
    have frame : (∀ h ∈ (heads m key).dropLast, (h.currBuckIdx % N, h.currTagIdx) ≠ (b, j)) →
        readTag last.state b j = readTag m b j := by
      intro differ
      rw [cons] at all passes final differ
      exact passes_frame (lawful small) (by omega) passes all final (by omega) slot
        fun h member => apart h (differ h member)
    rcases outcome with ⟨near, result⟩ | ⟨_, _, result⟩
    · have differ : ∀ h ∈ heads m key, (h.currBuckIdx % N, h.currTagIdx) ≠ (b, j) := by
        intro h member same
        exact unwritten (by rw [written, result]; exact List.mem_map.mpr ⟨h, member, same⟩)
      have place := all last (List.mem_of_mem_getLast? final)
      obtain ⟨tag, _, bound⟩ := tagOf_spec key
      have fits : (tagOf key ||| (last.currBuckIdx - initBuckIdx N key)) < 2 ^ 16 := by
        rw [or_tagOf key near]
        omega
      rw [result, readTag_writeTag _ place.slot fits,
        if_neg (apart last (differ last (List.mem_of_mem_getLast? final)))]
      exact frame fun h member => differ h (List.mem_of_mem_dropLast member)
    · rw [result]
      refine frame fun h member same => unwritten ?_
      rw [written, result]
      exact List.mem_map.mpr ⟨h, member, same⟩

/-- The insertion on an arbitrary array: it ends after at most `N` evaluations of the loop
condition, `curr_buck_idx` goes down from pass to pass and never underflows, the first
slot written was empty and each later one is the slot just copied; whatever was stored
stays stored all along, and the other slots stay as they were. -/
theorem insert_loop (produced : Produced N) (m : Memory N) (key : Word) :
    (heads m key = [] → insert m key = (false, m) ∧ ∀ b < N, ∀ j < 4, readTag m b j ≠ 0) ∧
    (∀ first ∈ (heads m key).head?, first.state = m ∧ readTag m first.currBuckIdx first.currTagIdx = 0) ∧
    (heads m key).IsChain (Pass (access N) N (initBuckIdx N key)) ∧
    (∀ h ∈ heads m key, initBuckIdx N key ≤ h.currBuckIdx ∧ h.currBuckIdx - initBuckIdx N key ≤ N - 1 ∧
      h.currBuckIdx % N < N ∧ h.currTagIdx < 4 ∧ alpha m ≤ alpha h.state) ∧
    (heads m key).length ≤ N ∧
    (∀ last ∈ (heads m key).getLast?,
      (last.currBuckIdx - initBuckIdx N key < 16 ∧ insert m key = (true, writeTag last.state last.currBuckIdx
          last.currTagIdx (tagOf key ||| (last.currBuckIdx - initBuckIdx N key)))) ∨
      (16 ≤ last.currBuckIdx - initBuckIdx N key ∧ findCadi (readTag last.state) last.currBuckIdx = none ∧
        insert m key = (false, last.state))) ∧
    alpha m ≤ alpha (insert m key).2 ∧
    ∀ b < N, ∀ j < 4, (b, j) ∉ written m key → readTag (insert m key).2 b j = readTag m b j := by
  have small := produced.small
  have pos := NeZero.pos N
  refine ⟨heads_nil small, ?_⟩
  by_cases empty : heads m key = []
  · refine ⟨?_, ?_, ?_, ?_, ?_, alpha_le_insert small m key,
      fun b inside j slot => unwritten_kept small m key inside slot⟩
    all_goals simp [empty]
  · obtain ⟨c, k, rest, final, cons, last, zero, all, passes, outcome⟩ := heads_cons small empty
    refine ⟨?_, passes, fun h member => ?_, ?_, ?_, alpha_le_insert small m key,
      fun b inside j slot => unwritten_kept small m key inside slot⟩
    · intro first member
      obtain rfl : ⟨m, c, k⟩ = first := by simpa [cons] using member
      exact ⟨rfl, zero⟩
    · have below := (all h member).below
      refine ⟨(all h member).above, by omega, Nat.mod_lt _ pos, (all h member).slot, ?_⟩
      rw [alpha_eq_entries, alpha_eq_entries]
      exact (all h member).entries_le
    · have below := (all ⟨m, c, k⟩ (by rw [cons]; exact List.mem_cons_self)).below
      have above := (all final (List.mem_of_mem_getLast? last)).above
      rw [cons] at passes last
      have count : final.currBuckIdx + rest.length ≤ c := passes_le passes last
      simp only at below
      rw [cons, List.length_cons]
      omega
    · intro last' member
      obtain rfl := Option.mem_unique last member
      exact outcome

/-- Seventeen buckets hold something, the eighteenth is empty: a tag moves from bucket 2
to bucket 17 and makes room. -/
theorem insert_loop_eighteen :
    let m : Memory 18 := ⟨Vector.ofFn fun i => if i.val = 17 then 0#64 else 0x0010001000100010#64,
      Vector.replicate 18 0#64⟩
    (heads m 0#64).length = 2 ∧ (heads m 0#64).IsChain (Pass (access 18) 18 (initBuckIdx 18 0#64)) ∧
      alpha m ≤ alpha (insert m 0#64).2 := by
  intro m
  obtain ⟨-, -, passes, -, -, -, kept, -⟩ := insert_loop produced_eighteen m 0#64
  exact ⟨by decide +kernel, passes, kept⟩

end Pm

end WormholeFilters
