/-! Records with sequence numbers, all of one key. A reader at a number sees the newest
record that is not younger. Records may be kept in layers, with newer ones above. -/
namespace Multiversion

variable {ρ : Type} {seq : ρ → Nat} {A B C : ρ → Prop} {s : Nat} {r r' : ρ}

structure Newest (seq : ρ → Nat) (A : ρ → Prop) (s : Nat) (r : ρ) : Prop where
  mem : A r
  visible : seq r ≤ s
  max : ∀ r', A r' → seq r' ≤ s → seq r' ≤ seq r

def Unseen (seq : ρ → Nat) (A : ρ → Prop) (s : Nat) : Prop := ∀ r, A r → s < seq r

def Above (seq : ρ → Nat) (A B : ρ → Prop) : Prop := ∀ a b, A a → B b → seq b < seq a

theorem Newest.seen (newest : Newest seq A s r) : ¬ Unseen seq A s := fun unseen =>
  Nat.lt_irrefl _ (Nat.lt_of_le_of_lt newest.visible (unseen r newest.mem))

theorem Newest.unique (distinct : ∀ a b, A a → A b → seq a = seq b → a = b) (first : Newest seq A s r)
    (second : Newest seq A s r') : r = r' :=
  distinct r r' first.mem second.mem
    (Nat.le_antisymm (second.max r first.mem first.visible) (first.max r' second.mem second.visible))

theorem Unseen.mono (sub : ∀ r, B r → A r) (unseen : Unseen seq A s) : Unseen seq B s :=
  fun r member => unseen r (sub r member)

/-- What is seen in the upper layer is the answer. -/
theorem Newest.above (above : Above seq A B) (whole : ∀ r, C r ↔ A r ∨ B r) (newest : Newest seq A s r) :
    Newest seq C s r := by
  refine ⟨(whole r).mpr (Or.inl newest.mem), newest.visible, fun r' member visible => ?_⟩
  rcases (whole r').mp member with upper | lower
  · exact newest.max r' upper visible
  · exact Nat.le_of_lt (above r r' newest.mem lower)

/-- Where nothing is seen in the upper layer, the answer is in the lower one. -/
theorem Newest.below (unseen : Unseen seq A s) (whole : ∀ r, C r ↔ A r ∨ B r) (newest : Newest seq B s r) :
    Newest seq C s r := by
  refine ⟨(whole r).mpr (Or.inr newest.mem), newest.visible, fun r' member visible => ?_⟩
  rcases (whole r').mp member with upper | lower
  · exact absurd visible (Nat.not_le.mpr (unseen r' upper))
  · exact newest.max r' lower visible

/-- Records that are not seen change nothing. -/
theorem Newest.extend (sub : ∀ r, A r → C r) (rest : ∀ r, C r → A r ∨ s < seq r) (newest : Newest seq A s r) :
    Newest seq C s r := by
  refine ⟨sub r newest.mem, newest.visible, fun r' member visible => ?_⟩
  rcases rest r' member with inside | hidden
  · exact newest.max r' inside visible
  · exact absurd visible (Nat.not_le.mpr hidden)

theorem Unseen.extend (rest : ∀ r, C r → A r ∨ s < seq r) (unseen : Unseen seq A s) : Unseen seq C s :=
  fun r member => (rest r member).elim (unseen r) id

section Layers

variable {layers : List (ρ → Prop)}

def Any (layers : List (ρ → Prop)) (r : ρ) : Prop := ∃ A ∈ layers, A r

theorem any_cons (A : ρ → Prop) (layers : List (ρ → Prop)) (r : ρ) : Any (A :: layers) r ↔ A r ∨ Any layers r := by
  simp [Any]

/-- The first layer in which something is seen has the newest record of all. -/
theorem Newest.any (above : (A :: layers).Pairwise (Above seq)) (newest : Newest seq A s r) :
    Newest seq (Any (A :: layers)) s r := by
  refine newest.above (fun a b upper lower => ?_) (any_cons A layers)
  obtain ⟨B, member, lower⟩ := lower
  exact (List.pairwise_cons.mp above).1 B member a b upper lower

end Layers

section Answers

variable {α : Type} {answer : ρ → α} {absent x y : α}

/-- A reader at `s` gets the answer of the newest record that it sees. -/
def Answered (seq : ρ → Nat) (answer : ρ → α) (absent : α) (A : ρ → Prop) (s : Nat) (x : α) : Prop :=
  (∃ r, Newest seq A s r ∧ x = answer r) ∨ Unseen seq A s ∧ x = absent

theorem Answered.unique (distinct : ∀ a b, A a → A b → seq a = seq b → a = b)
    (first : Answered seq answer absent A s x) (second : Answered seq answer absent A s y) : x = y := by
  rcases first with ⟨r, newest, rfl⟩ | ⟨unseen, rfl⟩ <;> rcases second with ⟨r', newest', rfl⟩ | ⟨unseen', rfl⟩
  · rw [newest.unique distinct newest']
  · exact absurd unseen' newest.seen
  · exact absurd unseen newest'.seen
  · rfl

/-- Where nothing is seen in the upper layer, the lower one answers. -/
theorem Answered.below (unseen : Unseen seq A s) (whole : ∀ r, C r ↔ A r ∨ B r)
    (answered : Answered seq answer absent B s x) :
    Answered seq answer absent C s x := by
  rcases answered with ⟨r, newest, rfl⟩ | ⟨unseen', rfl⟩
  · exact Or.inl ⟨r, newest.below unseen whole, rfl⟩
  · exact Or.inr ⟨fun r member => ((whole r).mp member).elim (unseen r) (unseen' r), rfl⟩

end Answers

section Prune

/-- What is left out of `A` in `B` is behind a newer record for every reader from `snap` on, or is a mark below which
nothing is left. -/
structure Prunes (seq : ρ → Nat) (marks : ρ → Prop) (snap : Nat) (A B : ρ → Prop) : Prop where
  sub : ∀ r, B r → A r
  gone : ∀ r, A r → B r ∨ (∃ r', A r' ∧ seq r < seq r' ∧ seq r' ≤ snap) ∨ marks r ∧ Unseen seq B (seq r)

variable {marks : ρ → Prop} {snap : Nat}

theorem Prunes.newest (prunes : Prunes seq marks snap A B) (le : snap ≤ s) (newest : Newest seq A s r) :
    Newest seq B s r ∨ marks r ∧ Unseen seq B s := by
  rcases prunes.gone r newest.mem with kept | ⟨r', member, newer, visible⟩ | ⟨isMark, above⟩
  · exact Or.inl ⟨kept, newest.visible, fun r' member => newest.max r' (prunes.sub r' member)⟩
  · have := newest.max r' member (Nat.le_trans visible le)
    omega
  · refine Or.inr ⟨isMark, fun r' member => Nat.not_le.mp fun visible => ?_⟩
    have older := newest.max r' (prunes.sub r' member) visible
    exact absurd (above r' member) (Nat.not_lt.mpr older)

/-- No reader from `snap` on gets another answer. -/
theorem Prunes.answered {α : Type} {answer : ρ → α} {absent x : α} (prunes : Prunes seq marks snap A B) (le : snap ≤ s)
    (absence : ∀ r, marks r → answer r = absent) (answered : Answered seq answer absent A s x) :
    Answered seq answer absent B s x := by
  rcases answered with ⟨r, newest, rfl⟩ | ⟨unseen, rfl⟩
  · rcases prunes.newest le newest with kept | ⟨isMark, unseen⟩
    · exact Or.inl ⟨r, kept, rfl⟩
    · exact Or.inr ⟨unseen, absence r isMark⟩
  · exact Or.inr ⟨unseen.mono prunes.sub, rfl⟩

/-- Records above both change nothing. -/
theorem Prunes.under (prunes : Prunes seq marks snap A B) (above : Above seq C A) :
    Prunes seq marks snap (fun r => C r ∨ A r) (fun r => C r ∨ B r) where
  sub r member := member.imp_right (prunes.sub r)
  gone r member := by
    rcases member with upper | lower
    · exact Or.inl (Or.inl upper)
    · rcases prunes.gone r lower with kept | ⟨r', member, newer, visible⟩ | ⟨isMark, unseen⟩
      · exact Or.inl (Or.inr kept)
      · exact Or.inr (Or.inl ⟨r', Or.inr member, newer, visible⟩)
      · refine Or.inr (Or.inr ⟨isMark, fun r' member => ?_⟩)
        exact member.elim (fun upper => above r' r upper lower) (unseen r')

end Prune

section Serve

variable {marks : ρ → Prop} {N : ρ → Prop} {last : Nat}

/-- For a reader at `s` the records of `B` stand for those of `A`. -/
structure Serves (seq : ρ → Nat) (marks : ρ → Prop) (A B : ρ → Prop) (s : Nat) : Prop where
  sub : ∀ r, B r → A r
  newest : ∀ r, Newest seq A s r → Newest seq B s r ∨ marks r ∧ Unseen seq B s

theorem Serves.answered {α : Type} {answer : ρ → α} {absent x : α} (serves : Serves seq marks A B s)
    (absence : ∀ r, marks r → answer r = absent) (answered : Answered seq answer absent A s x) :
    Answered seq answer absent B s x := by
  rcases answered with ⟨r, newest, rfl⟩ | ⟨unseen, rfl⟩
  · rcases serves.newest r newest with kept | ⟨isMark, unseen⟩
    · exact Or.inl ⟨r, kept, rfl⟩
    · exact Or.inr ⟨unseen, absence r isMark⟩
  · exact Or.inr ⟨unseen.mono serves.sub, rfl⟩

theorem Serves.congr (serves : Serves seq marks A B s) (same : ∀ r, B r ↔ C r) : Serves seq marks A C s := by
  have equal : B = C := funext fun r => propext (same r)
  exact equal ▸ serves

theorem Serves.prune {snap : Nat} (serves : Serves seq marks A B s) (prunes : Prunes seq marks snap B C)
    (le : snap ≤ s) :
    Serves seq marks A C s where
  sub r member := serves.sub r (prunes.sub r member)
  newest r newest := by
    rcases serves.newest r newest with kept | ⟨isMark, unseen⟩
    · exact prunes.newest le kept
    · exact Or.inr ⟨isMark, unseen.mono prunes.sub⟩

/-- What is written later a reader does not see. -/
theorem Serves.later (serves : Serves seq marks A B s) (new : ∀ r, N r → s < seq r) :
    Serves seq marks (fun r => A r ∨ N r) (fun r => B r ∨ N r) s where
  sub r member := member.imp_left (serves.sub r)
  newest r newest := by
    have old : Newest seq A s r := by
      refine ⟨newest.mem.resolve_right fun isNew => ?_, newest.visible, fun r' member => newest.max r' (Or.inl member)⟩
      exact Nat.not_le.mpr (new r isNew) newest.visible
    have rest : ∀ r', B r' ∨ N r' → B r' ∨ s < seq r' := fun r' member => member.imp_right (new r')
    rcases serves.newest r old with kept | ⟨isMark, unseen⟩
    · exact Or.inl (kept.extend (fun _ => Or.inl) rest)
    · exact Or.inr ⟨isMark, unseen.extend rest⟩

/-- A reader that comes after a write sees all of it, and what was there before. -/
theorem Serves.write (serves : Serves seq marks A B last) (old : ∀ r, A r → seq r ≤ last) (le : last ≤ s)
    (new : ∀ r, N r → last < seq r ∧ seq r ≤ s) :
    Serves seq marks (fun r => A r ∨ N r) (fun r => B r ∨ N r) s where
  sub r member := member.imp_left (serves.sub r)
  newest r newest := by
    rcases newest.mem with isOld | isNew
    · have none : ∀ r', ¬ N r' := fun r' isNew => by
        have above := newest.max r' (Or.inr isNew) (new r' isNew).2
        have below := old r isOld
        have := (new r' isNew).1
        omega
      have before : Newest seq A last r :=
        ⟨isOld, old r isOld, fun r' member _ => newest.max r' (Or.inl member) (Nat.le_trans (old r' member) le)⟩
      rcases serves.newest r before with kept | ⟨isMark, unseen⟩
      · refine Or.inl ⟨Or.inl kept.mem, newest.visible, fun r' member _ => ?_⟩
        have present := member.resolve_right (none r')
        exact kept.max r' present (old r' (serves.sub r' present))
      · refine Or.inr ⟨isMark, fun r' member => ?_⟩
        have present := member.resolve_right (none r')
        exact absurd (unseen r' present) (Nat.not_lt.mpr (old r' (serves.sub r' present)))
    · exact Or.inl ⟨Or.inr isNew, newest.visible, fun r' member => newest.max r' (member.imp_left (serves.sub r'))⟩

end Serve

end Multiversion
