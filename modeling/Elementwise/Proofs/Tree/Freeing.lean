import Elementwise.Proofs.Tree.InPlace
import Elementwise.Proofs.Tree.Ownership

/-!
# Freeing what is below a node

Freeing a grounded node ends, and empties exactly the slots of what is below it. Where nothing owns the
node, the links between the nodes that stay are what they were.
-/

namespace Elementwise.Tree

variable {t t' t₁ t₂ : Tree} {x y : NodeId} {S S' : NodeId → Prop} {ε : Type}

/-- The same arena with some slots emptied. -/
structure Clears (S : NodeId → Prop) (t t' : Tree) : Prop where
  id : t'.id = t.id
  root : t'.root = t.root
  size : t'.slots.size = t.slots.size
  gone : ∀ y, S y → t'.slot? y = none
  kept : ∀ y, ¬S y → t'.slot? y = t.slot? y

namespace Clears

theorem refl (hS : ∀ y, ¬S y) : Clears S t t := ⟨rfl, rfl, rfl, fun y hy => absurd hy (hS y), fun _ _ => rfl⟩

theorem trans (h : Clears S t t₁) (h' : Clears S' t₁ t₂) : Clears (fun y => S y ∨ S' y) t t₂ where
  id := h'.id.trans h.id
  root := h'.root.trans h.root
  size := h'.size.trans h.size
  gone y hy := by
    by_cases hy' : S' y
    · exact h'.gone y hy'
    · exact (h'.kept y hy').trans (h.gone y (hy.resolve_right hy'))
  kept y hy := (h'.kept y fun hy' => hy (.inr hy')).trans (h.kept y fun hy' => hy (.inl hy'))

theorem congr (h : Clears S t t') (hS : ∀ y, S y ↔ S' y) : Clears S' t t' :=
  ⟨h.id, h.root, h.size, fun y hy => h.gone y ((hS y).mpr hy), fun y hy => h.kept y fun hy' => hy ((hS y).mp hy')⟩

/-- One slot was emptied. -/
theorem clear (t : Tree) (x : NodeId) : Clears (· = x) t (t.clear x) where
  id := rfl
  root := rfl
  size := by simp [Tree.clear]
  gone y hy := by rw [slot?_clear, if_pos hy.symm]
  kept y hy := by rw [slot?_clear, if_neg fun heq => hy heq.symm]

/-- A node that is left was there. -/
theorem of_get? (h : Clears S t t') {n : Node NodeId} (hget : t'.get? x = some n) : ¬S x ∧ t.get? x = some n := by
  have hx : ¬S x := fun hx => by simp [get?, h.gone x hx] at hget
  exact ⟨hx, by rwa [get?, h.kept x hx] at hget⟩

/-- An owner that is left was there. -/
theorem of_parent? (h : Clears S t t') {p : NodeId} (hp : t'.parent? x = some p) : ¬S x ∧ t.parent? x = some p := by
  have hx : ¬S x := fun hx => by simp [parent?, h.gone x hx] at hp
  exact ⟨hx, by rwa [parent?, h.kept x hx] at hp⟩

theorem get?_kept (h : Clears S t t') (hx : ¬S x) : t'.get? x = t.get? x := by rw [get?, get?, h.kept x hx]

theorem parent?_kept (h : Clears S t t') (hx : ¬S x) : t'.parent? x = t.parent? x := by
  rw [parent?, parent?, h.kept x hx]

end Clears

/-- Freeing a node empties the slots of what was below it in a given arena, and so does freeing it in place, with
any depth that is enough for what is below it. -/
def Frees (ε : Type) (t : Tree) (depth : Nat) (x : NodeId) (t₁ : Tree) : Prop :=
  Clears (t.Below · x) t₁ (freeWithin depth x t₁) ∧ ∀ deep, t.weight x < deep →
    (InPlace.free deep x : InPlace ε Unit).on t₁ = some (.ok (), freeWithin depth x t₁)

/-- Freeing nodes that have nothing below them in common, one after another. -/
theorem Frees.all {depth : Nat} {cs : List NodeId}
    (hfree : ∀ c ∈ cs, ∀ t₁, (∀ y, t.Below y c → t₁.slot? y = t.slot? y) → Frees ε t depth c t₁)
    (hapart : cs.Pairwise fun a b => ∀ y, t.Below y a → ¬t.Below y b)
    (hsame : ∀ c ∈ cs, ∀ y, t.Below y c → t₁.slot? y = t.slot? y) :
    Clears (fun y => ∃ c ∈ cs, t.Below y c) t₁ (cs.foldl (fun t c => freeWithin depth c t) t₁) ∧
      ∀ deep, (∀ c ∈ cs, t.weight c < deep) →
        (cs.forM (InPlace.free deep) : InPlace ε Unit).on t₁ =
          some (.ok (), cs.foldl (fun t c => freeWithin depth c t) t₁) := by
  induction cs generalizing t₁ with
  | nil => exact ⟨.refl (by simp), fun _ _ => rfl⟩
  | cons c cs ih =>
    rw [List.pairwise_cons] at hapart
    obtain ⟨hclears, hon⟩ := hfree c List.mem_cons_self t₁ (hsame c List.mem_cons_self)
    have hrest : ∀ d ∈ cs, ∀ y, t.Below y d → (freeWithin depth c t₁).slot? y = t.slot? y := by
      intro d hd y hy
      rw [hclears.kept y fun hyc => hapart.1 d hd y hyc hy]
      exact hsame d (List.mem_cons_of_mem _ hd) y hy
    obtain ⟨hclears', hon'⟩ := ih (fun d hd => hfree d (List.mem_cons_of_mem _ hd)) hapart.2 hrest
    refine ⟨(hclears.trans hclears').congr (by simp), fun deep hdeep => ?_⟩
    obtain ⟨hc, hcs⟩ := List.forall_mem_cons.mp hdeep
    exact (InPlace.on_bind_ok (hon deep hc) _).trans (hon' deep hcs)

/-- Freeing a grounded node, in any arena that still has what is below it. -/
theorem Linked.frees (h : t.Linked) {depth : Nat} (hx : t.Grounded x) (hlive : t.contains x = true)
    (hdepth : t.weight x < depth) (hsame : ∀ y, t.Below y x → t₁.slot? y = t.slot? y) : Frees ε t depth x t₁ := by
  induction depth generalizing x t₁ with
  | zero => omega
  | succ depth ih =>
    obtain ⟨n, hn⟩ := contains_iff.mp hlive
    have hget : t₁.get? x = some n := by rw [get?, hsame x .refl, ← get?, hn]
    have howned (c : NodeId) (hc : c ∈ n.children) : t.parent? c = some x := h.owns x n hn c hc
    have hlt (c : NodeId) (hc : c ∈ n.children) : t.weight c < t.weight x := h.weight_lt hx (howned c hc)
    have hfree : ∀ c ∈ n.children, ∀ t₁, (∀ y, t.Below y c → t₁.slot? y = t.slot? y) → Frees ε t depth c t₁ := by
      intro c hc t₁ hsame
      have hlt := hlt c hc
      exact ih (.of_parent? (howned c hc) hx) (contains_of_parent? (howned c hc)) (by omega) hsame
    -- what is below one child is not below another
    have hapart : n.children.Pairwise fun a b => ∀ y, t.Below y a → ¬t.Below y b := by
      refine (h.nodup x n hn).imp_of_mem fun ha hb hne y hya hyb => hne ?_
      exact hx.child_unique (howned _ ha) (howned _ hb) hya hyb
    obtain ⟨hclears, hon⟩ := Frees.all hfree hapart fun c hc y hy => hsame y (hy.tail (howned c hc))
    unfold Frees
    rw [freeWithin, hget]
    refine ⟨(hclears.trans (.clear _ x)).congr fun y => ?_, fun deep hdeep => ?_⟩
    · rw [h.below_iff hn]
      exact or_comm
    · obtain ⟨deep, rfl⟩ : ∃ k, deep = k + 1 := ⟨deep - 1, by omega⟩
      have hchildren := hon deep fun c hc => Nat.lt_of_lt_of_le (hlt c hc) (Nat.le_of_lt_succ hdeep)
      rw [InPlace.free, InPlace.on_get_bind, hget]
      exact (InPlace.on_bind_ok hchildren _).trans rfl

/-- Freeing a grounded node empties the slots of what is below it. -/
theorem Linked.clears_free (h : t.Linked) (hx : t.Grounded x) (hlive : t.contains x = true) :
    Clears (t.Below · x) t (t.free x) :=
  (h.frees (ε := Empty) hx hlive (Nat.lt_succ_of_le (t.weight_le x)) fun _ _ => rfl).1

/-- Freeing a grounded node in place ends. -/
theorem Linked.free_on (h : t.Linked) (hx : t.Grounded x) (hlive : t.contains x = true) {depth : Nat}
    (hdepth : t.slots.size < depth) : (InPlace.free depth x : InPlace ε Unit).on t = some (.ok (), t.free x) :=
  (h.frees hx hlive (Nat.lt_succ_of_le (t.weight_le x)) fun _ _ => rfl).2 depth
    (Nat.lt_of_le_of_lt (t.weight_le x) hdepth)

/-- What is owned is below one of several nodes without an owner if its owner is. -/
theorem below_free_iff {gone : List NodeId} (hfree : ∀ x ∈ gone, t.parent? x = none) {c p : NodeId}
    (hc : t.parent? c = some p) : (∃ x ∈ gone, t.Below c x) ↔ ∃ x ∈ gone, t.Below p x := by
  constructor
  · rintro ⟨x, hx, hbelow⟩
    rcases Relation.ReflTransGen.cases_head hbelow with rfl | ⟨q, hq, hrest⟩
    · exact absurd ((hfree c hx).symm.trans hc) (by simp)
    · obtain rfl : q = p := Option.some.inj (Eq.trans (Eq.symm hq) hc)
      exact ⟨x, hx, hrest⟩
  · rintro ⟨x, hx, hbelow⟩
    exact ⟨x, hx, hbelow.head hc⟩

namespace Clears

/-- Without nodes that go with their owners and with what they own, the arena is still linked. -/
theorem linked (hclears : Clears S t t') (h : t.Linked) (hS : ∀ c p, t.parent? c = some p → (S c ↔ S p)) :
    t'.Linked := by
  refine ⟨fun p n hget c hc => ?_, fun p n hget => ?_, fun y p hy => ?_⟩
  · obtain ⟨hp, hget⟩ := hclears.of_get? hget
    have howned := h.owns p n hget c hc
    rw [hclears.parent?_kept (mt (hS c p howned).mp hp), howned]
  · exact h.nodup p n (hclears.of_get? hget).2
  · obtain ⟨hkept, howned⟩ := hclears.of_parent? hy
    obtain ⟨n, hn, hmem⟩ := h.listed y p howned
    exact ⟨n, by rw [hclears.get?_kept (mt (hS y p howned).mpr hkept), hn], hmem⟩

/-- The root stays if it is not freed. -/
theorem rooted (hclears : Clears S t t') (h : t.Rooted) (hroot : ¬S t.root) : t'.Rooted := by
  refine ⟨?_, ?_⟩
  · rw [hclears.root, hclears.get?_kept hroot]
    exact h.block
  · rw [hclears.root, hclears.parent?_kept hroot]
    exact h.free

/-- A name that is live was live. -/
theorem contains (hclears : Clears S t t') (hx : t'.contains x = true) : t.contains x = true := by
  obtain ⟨n, hn⟩ := contains_iff.mp hx
  exact contains_iff.mpr ⟨n, (hclears.of_get? hn).2⟩

end Clears

end Elementwise.Tree
