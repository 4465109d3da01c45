import WormholeFilters.RingDisplacement
import Mathlib.Algebra.BigOperators.Group.Finset.Basic
import Mathlib.Data.Finset.Card
import Mathlib.Data.Fintype.Fin

/-! Which homes a ring of `N` buckets with `S` slots each can hold when a payload
may sit at most `K - 1` buckets after its home. A crowded arc rules a placement
out; a greedy insertion into a packed table fails only at such an arc. -/
namespace RingTable

variable {N S : Nat} {κ : Type} {K : Nat} {h : ZMod N} {x : κ}

/-- A placement pairs every home with a distance; no bucket receives more than
`S` of them. -/
def Placeable (S K : Nat) (homes : Multiset (ZMod N)) : Prop :=
  ∃ m : Multiset (ZMod N × Nat), m.map Prod.fst = homes ∧ (∀ p ∈ m, p.2 < K ∧ p.2 < N) ∧
    ∀ b, m.countP (fun p => p.1 + (p.2 : ZMod N) = b) ≤ S

theorem Placeable.of_cons {homes : Multiset (ZMod N)} (placeable : Placeable S K (h ::ₘ homes)) :
    Placeable S K homes := by
  obtain ⟨m, same, near, capacity⟩ := placeable
  obtain ⟨p, member, _, rest⟩ := (Multiset.map_eq_cons _ _ _ _).mpr same
  refine ⟨m.erase p, rest, fun q stored => near q (Multiset.mem_of_mem_erase stored), fun b => ?_⟩
  exact (Multiset.countP_le_of_le _ (Multiset.erase_le p m)).trans (capacity b)

theorem Placeable.mono {homes more : Multiset (ZMod N)} (placeable : Placeable S K more)
    (le : homes ≤ more) : Placeable S K homes := by
  obtain ⟨extra, rfl⟩ := Multiset.le_iff_exists_add.mp le
  clear le
  induction extra using Multiset.induction_on with
  | empty => simpa using placeable
  | cons a extra ih =>
    rw [Multiset.add_cons] at placeable
    exact ih placeable.of_cons

private theorem countP_image_le {α β : Type} [DecidableEq β] (m : Multiset α) (f : α → β)
    (capacity : ∀ b, m.countP (fun p => f p = b) ≤ S) (B : Finset β) :
    m.countP (fun p => f p ∈ B) ≤ S * B.card := by
  induction B using Finset.induction_on with
  | empty => simp
  | insert b B fresh ih =>
    have split : m.countP (fun p => f p ∈ insert b B) ≤
        m.countP (fun p => f p = b) + m.countP (fun p => f p ∈ B) := by
      simp only [Finset.mem_insert]
      clear ih capacity
      induction m using Multiset.induction_on with
      | empty => simp
      | cons a m ih =>
        simp only [Multiset.countP_cons]
        by_cases first : f a = b
        · by_cases second : f a ∈ B
          · simp only [first, true_or, ite_true]; omega
          · simp only [first, true_or, ite_true]; omega
        · simp only [first, false_or, ite_false]; omega
    rw [Finset.card_insert_of_notMem fresh, Nat.mul_succ]
    have := capacity b
    omega

/-- Pigeonhole: the homes in `H` only reach the buckets `B`, which have too few slots. -/
theorem not_placeable_of_crowded {homes : Multiset (ZMod N)} (H B : Finset (ZMod N))
    (closed : ∀ a ∈ H, ∀ d : Nat, d < K → a + d ∈ B)
    (crowded : S * B.card < homes.countP (· ∈ H)) : ¬ Placeable S K homes := by
  rintro ⟨m, rfl, near, capacity⟩
  rw [Multiset.countP_map, ← Multiset.countP_eq_card_filter] at crowded
  have inside : m.countP (fun p => p.1 ∈ H) ≤ m.countP (fun p => p.1 + (p.2 : ZMod N) ∈ B) := by
    have both : m.filter (fun p => p.1 ∈ H) =
        m.filter (fun p => p.1 ∈ H ∧ p.1 + (p.2 : ZMod N) ∈ B) := by
      apply Multiset.filter_congr
      intro p stored
      exact ⟨fun home => ⟨home, closed _ home _ (near p stored).1⟩, And.left⟩
    rw [Multiset.countP_eq_card_filter, Multiset.countP_eq_card_filter, both]
    exact Multiset.card_le_card (Multiset.monotone_filter_right m fun _ => And.right)
  have := countP_image_le m (fun p => p.1 + (p.2 : ZMod N)) capacity B
  omega

/-- One home has room for `S * K` payloads and no more. -/
theorem not_placeable_replicate {n : Nat} (many : S * K < n) :
    ¬ Placeable S K (Multiset.replicate n h) := by
  refine not_placeable_of_crowded {h} ((Finset.range K).image fun d : Nat => h + (d : ZMod N)) ?_ ?_
  · intro a home d near
    obtain rfl := Finset.mem_singleton.mp home
    exact Finset.mem_image_of_mem _ (Finset.mem_range.mpr near)
  · have few : ((Finset.range K).image fun d : Nat => h + (d : ZMod N)).card ≤ K :=
      Finset.card_image_le.trans (Finset.card_range K).le
    have all : (Multiset.replicate n h).countP (· ∈ ({h} : Finset (ZMod N))) = n := by
      rw [Multiset.countP_eq_card.mpr, Multiset.card_replicate]
      intro a member
      exact Finset.mem_singleton.mpr (Multiset.eq_of_mem_replicate member)
    rw [all]
    exact (Nat.mul_le_mul_left S few).trans_lt many

private theorem exists_list_of_map {α β : Type} (l : List β) (m : Multiset (β × α))
    (same : m.map Prod.fst = l) : ∃ k : List (β × α), (k : Multiset (β × α)) = m ∧ k.map Prod.fst = l := by
  classical
  induction l generalizing m with
  | nil => exact ⟨[], (Multiset.map_eq_zero.mp same).symm, rfl⟩
  | cons b l ih =>
    obtain ⟨p, member, rfl, rest⟩ := (Multiset.map_eq_cons _ _ (l : Multiset β) _).mpr same
    obtain ⟨k, same, map⟩ := ih _ rest
    refine ⟨p :: k, ?_, by simp [map]⟩
    rw [← Multiset.cons_coe, same, Multiset.cons_erase member]

/-- Buckets for a list of homes, position by position: each within reach of its home,
and none used more than `S` times. -/
def Assignable (S K N : Nat) (homes : List Nat) : Prop :=
  ∃ place : List Nat, List.Forall₂ (fun h b => ∃ d, d < K ∧ d < N ∧ b = (h + d) % N) homes place ∧
    ∀ b, place.count b ≤ S

section Assignable

private def reached (p : ZMod N × Nat) : Nat := (p.1 + (p.2 : ZMod N)).val

private theorem reached_homes {homes : List Nat} {k : List (ZMod N × Nat)}
    (same : k.map Prod.fst = homes.map ((↑) : Nat → ZMod N)) (near : ∀ p ∈ k, p.2 < K ∧ p.2 < N) :
    List.Forall₂ (fun h b => ∃ d, d < K ∧ d < N ∧ b = (h + d) % N) homes (k.map reached) := by
  induction homes generalizing k with
  | nil =>
    obtain rfl : k = [] := List.map_eq_nil_iff.mp same
    exact .nil
  | cons h homes ih =>
    obtain ⟨p, k, rfl, first, rest⟩ := List.map_eq_cons_iff.mp same
    refine .cons ⟨p.2, (near p List.mem_cons_self).1, (near p List.mem_cons_self).2, ?_⟩
      (ih rest fun q member => near q (List.mem_cons_of_mem p member))
    rw [reached, first, ← Nat.cast_add, ZMod.val_natCast]

private theorem exists_reached {homes place : List Nat}
    (reach : List.Forall₂ (fun h b => ∃ d, d < K ∧ d < N ∧ b = (h + d) % N) homes place) :
    ∃ k : List (ZMod N × Nat), k.map Prod.fst = homes.map ((↑) : Nat → ZMod N) ∧
      (∀ p ∈ k, p.2 < K ∧ p.2 < N) ∧ k.map reached = place := by
  induction reach with
  | nil => exact ⟨[], rfl, by simp, rfl⟩
  | @cons h b homes place first _ ih =>
    obtain ⟨d, near, ring, rfl⟩ := first
    obtain ⟨k, same, bound, rfl⟩ := ih
    refine ⟨((h : ZMod N), d) :: k, by simp [same], ?_, ?_⟩
    · intro p member
      rcases List.mem_cons.mp member with rfl | member
      · exact ⟨near, ring⟩
      · exact bound p member
    · rw [List.map_cons, reached, ← Nat.cast_add, ZMod.val_natCast]

variable [NeZero N]

private theorem count_reached (k : List (ZMod N × Nat)) (b : ZMod N) :
    (k.map reached).count b.val = (k : Multiset (ZMod N × Nat)).countP (fun p => p.1 + (p.2 : ZMod N) = b) := by
  rw [List.count_eq_countP, List.countP_map, Multiset.coe_countP]
  apply List.countP_congr
  intro p _
  simp [reached, (ZMod.val_injective N).eq_iff]

/-- A list of homes can be placed exactly when its positions can be assigned to buckets. -/
theorem placeable_iff_assignable (homes : List Nat) :
    Placeable S K ((homes.map ((↑) : Nat → ZMod N) : List (ZMod N)) : Multiset (ZMod N)) ↔
      Assignable S K N homes := by
  constructor
  · rintro ⟨m, same, near, capacity⟩
    obtain ⟨k, rfl, map⟩ := exists_list_of_map _ m same
    refine ⟨k.map reached, reached_homes map near, fun b => ?_⟩
    by_cases inside : b < N
    · rw [← ZMod.val_cast_of_lt inside, count_reached]
      exact capacity _
    · rw [List.count_eq_zero_of_not_mem]
      · exact Nat.zero_le S
      · intro member
        obtain ⟨p, _, rfl⟩ := List.mem_map.mp member
        exact inside (ZMod.val_lt _)
  · rintro ⟨place, reach, capacity⟩
    obtain ⟨k, same, near, rfl⟩ := exists_reached reach
    exact ⟨k, congrArg _ same, near, fun b => (count_reached k b).symm.trans_le (capacity b.val)⟩

end Assignable

/-- Every bucket between a payload's home and its bucket is full. -/
def Packed (T : Table N S κ) : Prop :=
  ∀ b j y d, T (b, j) = some (y, d) → ∀ s : Nat, 0 < s → s ≤ d → Full T (b - s)

def Bounded (K : Nat) (T : Table N S κ) : Prop :=
  ∀ q y d, T q = some (y, d) → d < K ∧ d < N

/-- The occupied slots of a bucket come before its free ones. -/
def Leading (T : Table N S κ) : Prop := ∀ b (i j : Fin S), i < j → T (b, j) ≠ none → T (b, i) ≠ none

theorem packed_none : Packed (fun _ => none : Table N S κ) := by
  intro b j y d cell
  contradiction

theorem bounded_none : Bounded K (fun _ => none : Table N S κ) := by
  intro q y d cell
  contradiction

theorem leading_none : Leading (fun _ => none : Table N S κ) := by
  intro b i j below occupied
  contradiction

/-- Writing a payload whose way from home is full keeps a table packed. -/
theorem Packed.update {T : Table N S κ} (packed : Packed T) {b : ZMod N} {j : Fin S} {d : Nat}
    (way : ∀ s : Nat, 0 < s → s ≤ d → Full T (b - s)) :
    Packed (Function.update T (b, j) (some (x, d))) := by
  intro a k y c cell s pos bound
  by_cases same : (a, k) = (b, j)
  · rw [same, Function.update_self] at cell
    obtain ⟨rfl, rfl⟩ := Prod.mk.inj (Option.some.inj cell)
    obtain ⟨rfl, rfl⟩ := Prod.mk.inj same
    exact (way s pos bound).update _ _
  · rw [Function.update_of_ne same] at cell
    exact (packed a k y c cell s pos bound).update _ _

theorem Bounded.update {T : Table N S κ} (bounded : Bounded K T) {q : Slot N S} {d : Nat}
    (near : d < K) (inRing : d < N) : Bounded K (Function.update T q (some (x, d))) := by
  intro p y c cell
  by_cases same : p = q
  · rw [same, Function.update_self] at cell
    obtain ⟨_, rfl⟩ := Prod.mk.inj (Option.some.inj cell)
    exact ⟨near, inRing⟩
  · rw [Function.update_of_ne same] at cell
    exact bounded p y c cell

namespace Chain

variable {T T' : Table N S κ} {t t' : Nat} {j j' : Fin S}

theorem packed (chain : Chain K h T t j T' t' j') (full : ∀ i < t, Full T (h + i))
    (packed : Packed T) : Packed T' := by
  induction chain with
  | done => exact packed
  | @move T t j g i x d T' t' j' far forward cell near rest ih =>
    have way : ∀ s : Nat, 0 < s → s ≤ d + g → Full T (h + (t + g : Nat) - s) := by
      intro s pos bound
      by_cases inside : s ≤ g
      · have offset : h + ((t + g : Nat) : ZMod N) - s = h + (t + g - s : Nat) := by
          rw [Nat.cast_sub (by omega)]; abel
        rw [offset]
        exact full _ (by omega)
      · have offset : h + ((t + g : Nat) : ZMod N) - s = h + t - (s - g : Nat) := by
          rw [Nat.cast_sub (by omega)]; push_cast; abel
        rw [offset]
        exact packed _ _ _ _ cell _ (by omega) (by omega)
    exact ih (fun s bound => (full s (by omega)).update _ _) (packed.update way)

theorem bounded (chain : Chain K h T t j T' t' j') (inRing : t < N) (bounded : Bounded K T) :
    Bounded K T' := by
  induction chain with
  | done => exact bounded
  | move far forward cell near rest ih =>
    exact ih (by omega) (bounded.update near (by omega))

end Chain

namespace Insertion

variable {T T' : Table N S κ} {r : Bool}

theorem bounded (insertion : Insertion K T h x r T') (bounded : Bounded K T) : Bounded K T' := by
  cases insertion with
  | full => exact bounded
  | stuck first chain => exact chain.bounded first.inRing bounded
  | placed first chain near =>
    have := chain.le
    have := first.inRing
    exact (chain.bounded first.inRing bounded).update near (by omega)

/-- The invariant of tables that only ever saw insertions, failed ones included. -/
theorem packed (insertion : Insertion K T h x r T') (packed : Packed T) : Packed T' := by
  cases insertion with
  | full => exact packed
  | stuck first chain => exact chain.packed first.before packed
  | @placed e j T' t j' first chain near =>
    refine (chain.packed first.before packed).update fun s pos bound => ?_
    have offset : h + (t : ZMod N) - s = h + (t - s : Nat) := by
      rw [Nat.cast_sub bound]; abel
    have := chain.le
    rw [offset]
    exact (first.before _ (by omega)).mono chain.kept

/-- The slot an insertion occupies is the first free one of its bucket. -/
theorem leading (insertion : Insertion K T h x r T') (leading : Leading T) : Leading T' := by
  rcases insertion.occupied_cases with same | ⟨e, k, first, added⟩
  · intro b i j below occupied
    exact (same _).mpr (leading b i j below ((same _).mp occupied))
  · intro b i j below occupied
    rcases (added _).mp occupied with before | new
    · exact (added _).mpr (Or.inl (leading b i j below before))
    · obtain ⟨rfl, rfl⟩ := Prod.mk.inj new
      exact (added _).mpr (Or.inl (first.lower i below))

end Insertion

/-- The buckets that lie at least `lo` and less than `hi` before `c`. -/
private def arc (c : ZMod N) (lo hi : Nat) : Finset (ZMod N) :=
  (Finset.Ico lo hi).image fun s : Nat => c - (s : ZMod N)

private theorem mem_arc {c a : ZMod N} {lo hi : Nat} :
    a ∈ arc c lo hi ↔ ∃ s : Nat, lo ≤ s ∧ s < hi ∧ a = c - s := by
  simp only [arc, Finset.mem_image, Finset.mem_Ico]
  constructor
  · rintro ⟨s, ⟨above, below⟩, rfl⟩
    exact ⟨s, above, below, rfl⟩
  · rintro ⟨s, above, below, rfl⟩
    exact ⟨s, ⟨above, below⟩, rfl⟩

variable [NeZero N] {T T' : Table N S κ}

def homes (T : Table N S κ) : Multiset (ZMod N) := (entries T).map Prod.fst

private def reachOf (q : Slot N S) : Option (κ × Nat) → Multiset (ZMod N × Nat)
  | none => 0
  | some (_, d) => {(q.1 - d, d)}

theorem homes_eq_sum (T : Table N S κ) : homes T = ∑ q, (entry q (T q)).map Prod.fst :=
  map_sum (Multiset.mapAddMonoidHom Prod.fst) _ _

/-- The table itself is a placement of what it stores. -/
theorem homes_placeable (bounded : Bounded K T) : Placeable S K (homes T) := by
  refine ⟨∑ q, reachOf q (T q), ?_, ?_, ?_⟩
  · rw [homes_eq_sum]
    refine (map_sum (Multiset.mapAddMonoidHom Prod.fst) _ _).trans (Finset.sum_congr rfl fun q _ => ?_)
    rcases T q with _ | ⟨y, d⟩ <;> simp [reachOf]
  · intro p member
    obtain ⟨q, _, stored⟩ := Multiset.mem_sum.mp member
    rcases cell : T q with _ | ⟨y, d⟩
    · simp [cell, reachOf] at stored
    · have : p = (q.1 - d, d) := by simpa [cell, reachOf] using stored
      rw [this]
      exact bounded q y d cell
  · intro b
    have slot : ∀ q : Slot N S, (reachOf q (T q)).countP (fun p => p.1 + (p.2 : ZMod N) = b) ≤
        if q.1 = b then 1 else 0 := by
      intro q
      rcases T q with _ | ⟨y, d⟩
      · simp [reachOf]
      · simp [reachOf, ← Multiset.cons_zero, Multiset.countP_cons]
    calc (∑ q, reachOf q (T q)).countP (fun p => p.1 + (p.2 : ZMod N) = b)
        = ∑ q, (reachOf q (T q)).countP (fun p => p.1 + (p.2 : ZMod N) = b) :=
          map_sum (Multiset.countPAddMonoidHom _) _ _
      _ ≤ ∑ q : Slot N S, if q.1 = b then 1 else 0 := Finset.sum_le_sum fun q _ => slot q
      _ = S := by
        rw [Fintype.sum_prod_type_right]
        simp

/-- Full buckets whose payloads all come from `H` account for all their slots. -/
theorem countP_homes_ge (H B : Finset (ZMod N)) (full : ∀ b ∈ B, Full T b)
    (home : ∀ b ∈ B, ∀ j y d, T (b, j) = some (y, d) → b - (d : ZMod N) ∈ H) :
    S * B.card ≤ (homes T).countP (· ∈ H) := by
  have slot : ∀ q ∈ B ×ˢ (Finset.univ : Finset (Fin S)),
      1 ≤ ((entry q (T q)).map Prod.fst).countP (· ∈ H) := by
    rintro ⟨b, j⟩ member
    have inB := (Finset.mem_product.mp member).1
    obtain ⟨⟨y, d⟩, cell⟩ := Option.ne_none_iff_exists'.mp (full b inB j)
    have := home b inB j y d cell
    simp [cell, ← Multiset.cons_zero, this]
  calc S * B.card = ∑ q ∈ B ×ˢ (Finset.univ : Finset (Fin S)), 1 := by
        simp [Nat.mul_comm]
    _ ≤ ∑ q ∈ B ×ˢ (Finset.univ : Finset (Fin S)), ((entry q (T q)).map Prod.fst).countP (· ∈ H) :=
        Finset.sum_le_sum slot
    _ ≤ ∑ q, ((entry q (T q)).map Prod.fst).countP (· ∈ H) :=
        Finset.sum_le_sum_of_subset (Finset.subset_univ _)
    _ = (homes T).countP (· ∈ H) := by
        rw [homes_eq_sum]
        exact (map_sum (Multiset.countPAddMonoidHom _) _ _).symm

/-- Where a scan from home stops at a barrier, the arc of full buckets before it
is exactly filled by payloads that cannot leave it. -/
theorem not_placeable_of_barrier (packed : Packed T) {e t : Nat} {j : Fin S}
    (first : FirstFree T h e j) (inside : t ≤ e) (far : K ≤ t) (barrier : Barrier K T h t) :
    ¬ Placeable S K (h ::ₘ homes T) := by
  have step : ∀ s : Nat, s ≤ e → h + (e : ZMod N) - s = h + (e - s : Nat) := by
    intro s bound
    rw [Nat.cast_sub bound]; abel
  have opening : ∃ w : Nat, 0 < w ∧ ¬ Full T (h + e - w) := by
    refine ⟨N, NeZero.pos N, fun full => ?_⟩
    rw [ZMod.natCast_self, sub_zero] at full
    exact full j first.free
  classical
  obtain ⟨w, ⟨pos, gap⟩, least⟩ : ∃ w : Nat, (0 < w ∧ ¬ Full T (h + e - w)) ∧
      ∀ s < w, 0 < s → Full T (h + e - s) := by
    refine ⟨Nat.find opening, Nat.find_spec opening, fun s below pos => ?_⟩
    by_contra gap
    exact Nat.find_min opening below ⟨pos, gap⟩
  have beyond : e < w := by
    by_contra before
    rw [step w (by omega)] at gap
    exact gap (first.before _ (by omega))
  refine not_placeable_of_crowded (arc (h + e) (e - t + K) w) (arc (h + e) (e - t + 1) w) ?_ ?_
  · intro a member d near
    obtain ⟨s, above, below, rfl⟩ := mem_arc.mp member
    refine mem_arc.mpr ⟨s - d, by omega, by omega, ?_⟩
    rw [Nat.cast_sub (by omega)]; abel
  · have stored : S * (arc (h + (e : ZMod N)) (e - t + 1) w).card ≤
        (homes T).countP (· ∈ arc (h + (e : ZMod N)) (e - t + K) w) := by
      apply countP_homes_ge
      · intro b member
        obtain ⟨s, above, below, rfl⟩ := mem_arc.mp member
        exact least s below (by omega)
      · intro b member k y d cell
        obtain ⟨s, above, below, rfl⟩ := mem_arc.mp member
        refine mem_arc.mpr ⟨s + d, ?_, ?_, by push_cast; abel⟩
        · by_cases close : s ≤ e
          · rw [step s close] at cell
            have := barrier (t - (e - s)) (e - s) (by omega) (by omega) k y d cell
            omega
          · omega
        · by_contra outside
          apply gap
          have offset : h + (e : ZMod N) - w = h + e - s - (w - s : Nat) := by
            rw [Nat.cast_sub (by omega)]; abel
          rw [offset]
          exact packed _ _ _ _ cell _ (by omega) (by omega)
    rw [Multiset.countP_cons_of_pos]
    · omega
    · exact mem_arc.mpr ⟨e, by omega, beyond, by abel⟩

namespace Insertion

variable {r : Bool}

theorem homes_true (insertion : Insertion K T h x true T') : homes T' = h ::ₘ homes T := by
  rw [homes, insertion.entries_true, Multiset.map_cons]; rfl

/-- On a packed table the greedy insertion succeeds exactly when some placement
of the stored homes and the new one exists. -/
theorem succeeds_iff (insertion : Insertion K T h x r T') (packed : Packed T)
    (bounded : Bounded K T) : r = true ↔ Placeable S K (h ::ₘ homes T) := by
  constructor
  · rintro rfl
    rw [← insertion.homes_true]
    exact homes_placeable (insertion.bounded bounded)
  · intro placeable
    by_contra failed
    obtain rfl : r = false := by simpa using failed
    cases insertion with
    | full occupied =>
      refine not_placeable_of_crowded Finset.univ Finset.univ (fun _ _ _ _ => Finset.mem_univ _) ?_
        placeable
      rw [Multiset.countP_cons_of_pos _ (Finset.mem_univ h)]
      exact Nat.lt_succ_of_le (countP_homes_ge Finset.univ Finset.univ
        (fun b _ j => occupied (b, j)) (fun _ _ _ _ _ _ => Finset.mem_univ _))
    | @stuck e j _ t j' first chain far barrier =>
      refine not_placeable_of_barrier packed first chain.le far ?_ placeable
      intro g s pos sum k y d cell
      rw [← chain.untouched first.inRing s (by omega)] at cell
      exact barrier g s pos sum k y d cell

end Insertion

end RingTable
