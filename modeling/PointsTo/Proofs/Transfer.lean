import PointsTo.Proofs.Facts

/-!
# What a node does

One lemma for each transfer function.  Those that yield pointers are described by the members of
their result.  Those that write memory come with an induction principle: what every single write
keeps, they keep, and the mark that a single write makes for its place is there in the end.
-/

namespace PointsTo.Transfer

open Query

variable {μ : Type} [MemoryModel μ] {g : Graph} {id : NodeId} {n : Node} {maxOffset : Nat}

/-! ## Pointers -/

theorem mem_collect {out : PointerSet} (h : collect g n = .ok out) (p : Pointer) :
    p ∈ out ↔ ∃ op ∈ n.operands, ∃ s, g.pointsTo op = .ok s ∧ p ∈ s := by
  have hfold := foldlM_mem_iff (M := fun (out : PointerSet) p ↦ p ∈ out)
    (C := fun op p ↦ ∃ s, g.pointsTo op = .ok s ∧ p ∈ s) ?_ h p
  · simpa using hfold
  · intro op _ c d hd q
    simp only [bind_eq_ok_iff, pure_eq_ok_iff] at hd
    obtain ⟨s, hs, rfl⟩ := hd
    simp [hs]

theorem shiftBounded_eq {p q : Pointer} {amount : Offset}
    (h : shiftBounded g maxOffset p amount = .ok q) : q = g.shifted maxOffset p amount := by
  unfold shiftBounded at h
  unfold Graph.shifted
  split at h
  · rename_i hs
    rw [if_pos hs]
    exact (pure_eq_ok_iff.1 h).symm
  · rename_i hs
    rw [if_neg hs]
    split at h
    · rename_i hsum
      rw [hsum]
      exact (pure_eq_ok_iff.1 h).symm
    · simp only [bind_eq_ok_iff, pure_eq_ok_iff, Graph.node_eq_ok_iff] at h
      obtain ⟨target, htarget, rfl⟩ := h
      simp [Graph.sizeAt, htarget]

theorem mem_gep {out : PointerSet} {base : NodeId} (hbase : n.operand? 0 = some base)
    (h : gep g maxOffset n = .ok out) :
    ∃ s, g.pointsTo base = .ok s ∧
      ∀ q, q ∈ out ↔ ∃ p ∈ s, q = g.shifted maxOffset p n.offset := by
  simp only [gep, hbase, bind_eq_ok_iff, pure_eq_ok_iff] at h
  obtain ⟨s, hs, l, hl, rfl⟩ := h
  refine ⟨s, hs, fun q ↦ ?_⟩
  rw [OrderedSet.mem_ofList, mem_of_mapM hl]
  constructor
  · rintro ⟨p, hp, hq⟩
    exact ⟨p, hp, shiftBounded_eq hq⟩
  · rintro ⟨p, hp, rfl⟩
    obtain ⟨q, hq⟩ := ok_of_mapM hl p hp
    exact ⟨p, hp, shiftBounded_eq hq ▸ hq⟩

/-- One target of a load. -/
theorem mem_load_step {m : μ} {p : Pointer} {c d : PointerSet}
    (h : (do
      if p.isNull then return c
      if p.isUnknown then return c.insert .unknown
      return c ∪ (← MemoryModel.load g id p m) : Query PointerSet) = .ok d) :
    (p.isSentinel = false → ∃ read, MemoryModel.load g id p m = .ok read) ∧
      ∀ q, q ∈ d ↔ q ∈ c ∨ (p.isUnknown = true ∧ q = .unknown) ∨
        (p.isSentinel = false ∧ ∃ read, MemoryModel.load g id p m = .ok read ∧ q ∈ read) := by
  rcases p.sentinel_cases with ⟨hnull, hunknown, hs⟩ | ⟨hnull, hunknown, hs⟩ | ⟨hnull, hunknown, hs⟩
  · rw [if_pos hnull, pure_eq_ok_iff] at h
    subst h
    simp [hs, hunknown]
  · rw [if_neg (by simp [hnull]), if_pos hunknown, pure_eq_ok_iff] at h
    subst h
    simp [hs, hunknown, or_comm]
  · rw [if_neg (by simp [hnull]), if_neg (by simp [hunknown])] at h
    simp only [bind_eq_ok_iff, pure_eq_ok_iff] at h
    obtain ⟨read, hread, rfl⟩ := h
    simp [hs, hunknown, hread]

/-- A load reads through every target but null, and reads anything through unknown memory. -/
theorem mem_load {m : μ} {out : PointerSet} {pointer : NodeId} (hpointer : n.operand? 0 = some pointer)
    (h : load g id n m = .ok out) :
    ∃ s, g.pointsTo pointer = .ok s ∧
      (∀ p ∈ s, p.isSentinel = false → ∃ read, MemoryModel.load g id p m = .ok read) ∧
      ∀ q, q ∈ out ↔ ∃ p ∈ s, (p.isUnknown = true ∧ q = .unknown) ∨
        (p.isSentinel = false ∧ ∃ read, MemoryModel.load g id p m = .ok read ∧ q ∈ read) := by
  simp only [load, hpointer, bind_eq_ok_iff] at h
  obtain ⟨s, hs, h⟩ := h
  refine ⟨s, hs, fun p hp ↦ ?_, fun q ↦ ?_⟩
  · obtain ⟨c, d, hstep⟩ := ok_of_foldlM h p hp
    exact (mem_load_step hstep).1
  · have hfold := foldlM_mem_iff (M := fun (out : PointerSet) q ↦ q ∈ out)
      (C := fun (p : Pointer) q ↦ (p.isUnknown = true ∧ q = .unknown) ∨
        (p.isSentinel = false ∧ ∃ read, MemoryModel.load g id p m = .ok read ∧ q ∈ read)) ?_ h q
    · simp only [OrderedSet.not_mem_empty, false_or] at hfold
      exact hfold
    · exact fun p _ c d hstep ↦ (mem_load_step hstep).2

/-! ## Memory -/

/-- A node has two operands and this is what they point to. -/
def Operands (g : Graph) (n : Node) (first second : PointerSet) : Prop :=
  ∃ a b, n.operand? 0 = some a ∧ n.operand? 1 = some b ∧ g.pointsTo a = .ok first ∧
    g.pointsTo b = .ok second

theorem Operands.unique {s t s' t' : PointerSet} (h : Operands g n s t) (h' : Operands g n s' t') :
    s = s' ∧ t = t' := by
  obtain ⟨a, b, ha, hb, hs, ht⟩ := h
  obtain ⟨a', b', ha', hb', hs', ht'⟩ := h'
  rw [ha, Option.some.injEq] at ha'
  rw [hb, Option.some.injEq] at hb'
  subst ha' hb'
  rw [hs, Except.ok.injEq] at hs'
  rw [ht, Except.ok.injEq] at ht'
  exact ⟨hs', ht'⟩

/-- A store without both operands writes nothing; otherwise it writes through its targets one after
the other. -/
theorem store_cases {m m' : μ} {b : Bool} (h : store g id n m = .ok (b, m')) :
    (b = false ∧ m' = m ∧ ∀ values targets, ¬Operands g n values targets) ∨
    ∃ values targets, Operands g n values targets ∧
      targets.toList.foldlM (fun (acc : Bool × μ) p ↦ do
        if p.isSentinel then return acc
        let strong ← isStrong g (targets.size == 1) p
        return (acc.1 || (MemoryModel.store id p values strong acc.2).1,
          (MemoryModel.store id p values strong acc.2).2)) (false, m) = .ok (b, m') := by
  unfold store at h
  split at h
  · rename_i value pointer hvalue hpointer
    simp only [bind_eq_ok_iff] at h
    obtain ⟨values, hvalues, targets, htargets, h⟩ := h
    exact .inr ⟨values, targets, ⟨value, pointer, hvalue, hpointer, hvalues, htargets⟩, h⟩
  · rename_i hnone
    simp only [pure_eq_ok_iff, Prod.mk.injEq] at h
    refine .inl ⟨h.1.symm, h.2.symm, ?_⟩
    rintro values targets ⟨value, pointer, hvalue, hpointer, -⟩
    exact hnone value pointer hvalue hpointer

/-- What the write through each target keeps, a store keeps; the marks that these writes make for
their targets are there in the end. -/
theorem store_induction {m m' : μ} {b : Bool} {P : Bool → μ → Prop} {R : Pointer → Bool → μ → Prop}
    (hstep : ∀ values targets, Operands g n values targets → ∀ p ∈ targets, p.isSentinel = false →
      ∀ strong, isStrong g (targets.size == 1) p = .ok strong → ∀ c m, P c m →
      P (c || (MemoryModel.store id p values strong m).1) (MemoryModel.store id p values strong m).2 ∧
      R p (c || (MemoryModel.store id p values strong m).1) (MemoryModel.store id p values strong m).2 ∧
      ∀ q ∈ targets, R q c m → R q (c || (MemoryModel.store id p values strong m).1)
        (MemoryModel.store id p values strong m).2)
    (h : store g id n m = .ok (b, m')) (h0 : P false m) :
    P b m' ∧ ∀ values targets, Operands g n values targets → ∀ p ∈ targets, p.isSentinel = false →
      R p b m' := by
  rcases store_cases h with ⟨rfl, rfl, hnone⟩ | ⟨values, targets, hops, hfold⟩
  · exact ⟨h0, fun values targets hops ↦ absurd hops (hnone values targets)⟩
  · have := foldlM_marks (P := fun x : Bool × μ ↦ P x.1 x.2)
      (R := fun p (x : Bool × μ) ↦ p.isSentinel = false → R p x.1 x.2) ?_ hfold h0
    · refine ⟨this.1, fun values' targets' hops' ↦ ?_⟩
      obtain ⟨rfl, rfl⟩ := hops.unique hops'
      exact this.2
    · rintro p hp ⟨c, m₁⟩ d hP hd
      split at hd
      · rename_i hs
        obtain rfl := pure_eq_ok_iff.1 hd
        exact ⟨hP, fun hs' ↦ by simp [hs] at hs', fun q _ hq ↦ hq⟩
      · rename_i hs
        simp only [bind_eq_ok_iff, pure_eq_ok_iff] at hd
        obtain ⟨strong, hstrong, rfl⟩ := hd
        obtain ⟨hP', hR, hkeep⟩ := hstep values targets hops p hp (by simpa using hs) strong hstrong c m₁ hP
        exact ⟨hP', fun _ ↦ hR, fun q hq hRq hqs ↦ hkeep q hq (hRq hqs)⟩

theorem memcpy_cases {m m' : μ} {b : Bool} (h : memcpy g id n m = .ok (b, m')) :
    (b = false ∧ m' = m ∧ ∀ sources dests, ¬Operands g n sources dests) ∨
    ∃ sources dests, Operands g n sources dests ∧
      sources.toList.foldlM (fun (acc : Bool × μ) (src : Pointer) ↦ do
        if src.isNull then return acc
        dests.toList.foldlM (fun (acc : Bool × μ) (dest : Pointer) ↦ do
          if dest.isNull then return acc
          let (wrote, m) ← copyOne g id n src dest acc.2
          return (acc.1 || wrote, m)) acc) (false, m) = .ok (b, m') := by
  unfold memcpy at h
  split at h
  · rename_i src dest hsrc hdest
    simp only [bind_eq_ok_iff] at h
    obtain ⟨sources, hsources, dests, hdests, h⟩ := h
    exact .inr ⟨sources, dests, ⟨src, dest, hsrc, hdest, hsources, hdests⟩, h⟩
  · rename_i hnone
    simp only [pure_eq_ok_iff, Prod.mk.injEq] at h
    refine .inl ⟨h.1.symm, h.2.symm, ?_⟩
    rintro sources dests ⟨src, dest, hsrc, hdest, -⟩
    exact hnone src dest hsrc hdest

/-- The same for a copy, whose single steps copy from one source to one destination. -/
theorem memcpy_induction {m m' : μ} {b : Bool} {P : Bool → μ → Prop}
    {R : Pointer → Pointer → Bool → μ → Prop}
    (hstep : ∀ sources dests, Operands g n sources dests → ∀ src ∈ sources, src.isNull = false →
      ∀ dest ∈ dests, dest.isNull = false → ∀ c m w m₁, P c m → copyOne g id n src dest m = .ok (w, m₁) →
      P (c || w) m₁ ∧ R src dest (c || w) m₁ ∧
      ∀ src' ∈ sources, ∀ dest' ∈ dests, R src' dest' c m → R src' dest' (c || w) m₁)
    (h : memcpy g id n m = .ok (b, m')) (h0 : P false m) :
    P b m' ∧ ∀ sources dests, Operands g n sources dests → ∀ src ∈ sources, src.isNull = false →
      ∀ dest ∈ dests, dest.isNull = false → R src dest b m' := by
  rcases memcpy_cases h with ⟨rfl, rfl, hnone⟩ | ⟨sources, dests, hops, hfold⟩
  · exact ⟨h0, fun sources dests hops ↦ absurd hops (hnone sources dests)⟩
  · have := foldlM_marks (P := fun x : Bool × μ ↦ P x.1 x.2)
      (R := fun src (x : Bool × μ) ↦ src.isNull = false → ∀ dest ∈ dests, dest.isNull = false →
        R src dest x.1 x.2) ?_ hfold h0
    · refine ⟨this.1, fun sources' dests' hops' ↦ ?_⟩
      obtain ⟨rfl, rfl⟩ := hops.unique hops'
      exact this.2
    · intro src hsrc c d hP hd
      split at hd
      · rename_i hnull
        obtain rfl := pure_eq_ok_iff.1 hd
        exact ⟨hP, fun hnull' ↦ by simp [hnull] at hnull', fun _ _ hR ↦ hR⟩
      · rename_i hnull
        have hnull : src.isNull = false := by simpa using hnull
        -- The marks of all earlier sources have to survive the inner fold too.
        have inner := foldlM_marks
          (P := fun x : Bool × μ ↦ P x.1 x.2 ∧ ∀ src' ∈ sources, ∀ dest' ∈ dests,
            R src' dest' c.1 c.2 → R src' dest' x.1 x.2)
          (R := fun dest (x : Bool × μ) ↦ dest.isNull = false → R src dest x.1 x.2) ?_ hd
          ⟨hP, fun _ _ _ _ hR ↦ hR⟩
        · obtain ⟨⟨hPd, hkeep⟩, hmarks⟩ := inner
          exact ⟨hPd, fun _ ↦ hmarks, fun src' hsrc' hR hnull' dest' hdest' hd' ↦
            hkeep src' hsrc' dest' hdest' (hR hnull' dest' hdest' hd')⟩
        · rintro dest hdest ⟨c₁, m₁⟩ e ⟨hP₁, hkeep₁⟩ he
          split at he
          · rename_i hdnull
            obtain rfl := pure_eq_ok_iff.1 he
            exact ⟨⟨hP₁, hkeep₁⟩, fun hdnull' ↦ by simp [hdnull] at hdnull', fun _ _ hR ↦ hR⟩
          · rename_i hdnull
            simp only [bind_eq_ok_iff, pure_eq_ok_iff] at he
            obtain ⟨⟨w, m₂⟩, hcopy, rfl⟩ := he
            obtain ⟨hP', hR, hkeep⟩ := hstep sources dests hops src hsrc hnull dest hdest
              (by simpa using hdnull) c₁ m₁ w m₂ hP₁ hcopy
            exact ⟨⟨hP', fun src' hsrc' dest' hdest' hR' ↦
              hkeep src' hsrc' dest' hdest' (hkeep₁ src' hsrc' dest' hdest' hR')⟩, fun _ ↦ hR,
              fun dest' hdest' hR' hdnull' ↦ hkeep src hsrc dest' hdest' (hR' hdnull')⟩

/-- Nothing is copied to unknown memory, anything from it, and otherwise the model copies. -/
theorem copyOne_cases {m m' : μ} {w : Bool} {src dest : Pointer}
    (h : copyOne g id n src dest m = .ok (w, m')) :
    (dest.isUnknown = true ∧ w = false ∧ m' = m) ∨
    (dest.isUnknown = false ∧ src.isUnknown = true ∧
      MemoryModel.store id dest (.singleton .unknown) false m = (w, m')) ∨
    (dest.isUnknown = false ∧ src.isUnknown = false ∧
      MemoryModel.copy g id ⟨src.target, src.offset + n.offset⟩ dest n.length m = .ok (w, m')) := by
  unfold copyOne at h
  split at h
  · rename_i hdest
    simp only [pure_eq_ok_iff, Prod.mk.injEq] at h
    exact .inl ⟨hdest, h.1.symm, h.2.symm⟩
  · rename_i hdest
    split at h
    · rename_i hsrc
      exact .inr (.inl ⟨by simpa using hdest, hsrc, pure_eq_ok_iff.1 h⟩)
    · rename_i hsrc
      exact .inr (.inr ⟨by simpa using hdest, by simpa using hsrc, h⟩)

/-! ## All kinds of nodes -/

theorem effect_cases {m : μ} {e : Effect μ} (h : effect g maxOffset id n m = .ok e) :
    (n.kind.Collects ∧ collect g n = .ok e.gained ∧ e.memory = m ∧ e.wrote = false) ∨
    (n.kind = .gep ∧ gep g maxOffset n = .ok e.gained ∧ e.memory = m ∧ e.wrote = false) ∨
    (n.kind = .load ∧ load g id n m = .ok e.gained ∧ e.memory = m ∧ e.wrote = false) ∨
    (n.kind = .store ∧ store g id n m = .ok (e.wrote, e.memory) ∧ e.gained = ∅) ∨
    (n.kind = .memcpy ∧ memcpy g id n m = .ok (e.wrote, e.memory) ∧ e.gained = ∅) ∨
    (n.kind.Passive ∧ e.memory = m ∧ e.wrote = false ∧ e.gained = ∅) := by
  unfold effect at h
  cases hkind : n.kind with
  | cast | phi | ret | callReturn =>
    simp only [hkind, bind_eq_ok_iff, pure_eq_ok_iff] at h
    obtain ⟨s, hs, rfl⟩ := h
    exact .inl ⟨by simp [NodeKind.Collects], hs, rfl, rfl⟩
  | gep =>
    simp only [hkind, bind_eq_ok_iff, pure_eq_ok_iff] at h
    obtain ⟨s, hs, rfl⟩ := h
    exact .inr (.inl ⟨rfl, hs, rfl, rfl⟩)
  | load =>
    simp only [hkind, bind_eq_ok_iff, pure_eq_ok_iff] at h
    obtain ⟨s, hs, rfl⟩ := h
    exact .inr (.inr (.inl ⟨rfl, hs, rfl, rfl⟩))
  | store =>
    simp only [hkind, bind_eq_ok_iff, pure_eq_ok_iff] at h
    obtain ⟨w, hw, rfl⟩ := h
    exact .inr (.inr (.inr (.inl ⟨rfl, hw, rfl⟩)))
  | memcpy =>
    simp only [hkind, bind_eq_ok_iff, pure_eq_ok_iff] at h
    obtain ⟨w, hw, rfl⟩ := h
    exact .inr (.inr (.inr (.inr (.inl ⟨rfl, hw, rfl⟩))))
  | _ =>
    simp only [hkind, pure_eq_ok_iff] at h
    subst h
    exact .inr (.inr (.inr (.inr (.inr ⟨by simp [NodeKind.Passive, NodeKind.Collects], rfl, rfl, rfl⟩))))

variable {m : μ} {e : Effect μ}

theorem effect_collect (hkind : n.kind.Collects) (h : effect g maxOffset id n m = .ok e) :
    collect g n = .ok e.gained := by
  unfold effect at h
  rcases hkind with hk | hk | hk | hk
  all_goals
    simp only [hk, bind_eq_ok_iff, pure_eq_ok_iff] at h
    obtain ⟨s, hs, rfl⟩ := h
    exact hs

theorem effect_gep (hkind : n.kind = .gep) (h : effect g maxOffset id n m = .ok e) :
    gep g maxOffset n = .ok e.gained := by
  simp only [effect, hkind, bind_eq_ok_iff, pure_eq_ok_iff] at h
  obtain ⟨s, hs, rfl⟩ := h
  exact hs

theorem effect_load (hkind : n.kind = .load) (h : effect g maxOffset id n m = .ok e) :
    load g id n m = .ok e.gained := by
  simp only [effect, hkind, bind_eq_ok_iff, pure_eq_ok_iff] at h
  obtain ⟨s, hs, rfl⟩ := h
  exact hs

theorem effect_store (hkind : n.kind = .store) (h : effect g maxOffset id n m = .ok e) :
    store g id n m = .ok (e.wrote, e.memory) := by
  simp only [effect, hkind, bind_eq_ok_iff, pure_eq_ok_iff] at h
  obtain ⟨w, hw, rfl⟩ := h
  exact hw

theorem effect_memcpy (hkind : n.kind = .memcpy) (h : effect g maxOffset id n m = .ok e) :
    memcpy g id n m = .ok (e.wrote, e.memory) := by
  simp only [effect, hkind, bind_eq_ok_iff, pure_eq_ok_iff] at h
  obtain ⟨w, hw, rfl⟩ := h
  exact hw

end PointsTo.Transfer
