import Mathlib.Data.List.Basic
import PointsTo.Failure

/-!
# Taking computations apart

A query or a stateful step that succeeds did so because each of its parts succeeded.  The
equivalences below turn the success of a sequence into the results of its parts, and the lemmas on
folds carry an invariant of one step over a whole list.
-/

namespace PointsTo

namespace Query

variable {α β : Type}

theorem bind_eq_ok_iff {x : Query α} {f : α → Query β} {b : β} :
    x >>= f = .ok b ↔ ∃ a, x = .ok a ∧ f a = .ok b := by
  cases x with
  | error e => simp [bind, Except.bind]
  | ok a => simp [bind, Except.bind]

theorem pure_eq_ok_iff {a b : α} : (pure a : Query α) = .ok b ↔ a = b := by
  simp [pure, Except.pure]

theorem lookup_eq_ok_iff {table : List α} {id : Nat} {a : α} :
    lookup table id = .ok a ↔ table[id]? = some a := by
  rw [lookup]
  cases table[id]? with
  | none => simp
  | some b => simp

/-- A fold of queries that follow a fold of plain steps. -/
theorem foldlM_follows {γ : Type} {f : β → α → Query β} {f' : γ → α → γ} {R : γ → β → Prop} {l : List α} {b b' : β}
    {c : γ} (hstep : ∀ a ∈ l, ∀ c b d, R c b → f b a = .ok d → R (f' c a) d) (h : l.foldlM f b = .ok b')
    (hb : R c b) : R (l.foldl f' c) b' := by
  induction l generalizing b c with
  | nil =>
    rw [List.foldlM_nil, pure_eq_ok_iff] at h
    exact h ▸ hb
  | cons a rest ih =>
    rw [List.foldlM_cons, bind_eq_ok_iff] at h
    obtain ⟨d, hd, h⟩ := h
    exact ih (fun x hx ↦ hstep x (List.mem_cons_of_mem _ hx)) h (hstep a List.mem_cons_self c b d hb hd)

theorem ok_of_foldlM {f : β → α → Query β} {l : List α} {b b' : β} (h : l.foldlM f b = .ok b') :
    ∀ a ∈ l, ∃ c d, f c a = .ok d := by
  induction l generalizing b with
  | nil => simp
  | cons a rest ih =>
    rw [List.foldlM_cons, bind_eq_ok_iff] at h
    obtain ⟨c, hc, h⟩ := h
    intro x hx
    rcases List.mem_cons.1 hx with rfl | hx
    · exact ⟨b, c, hc⟩
    · exact ih h x hx

/-- A fold keeps an invariant and leaves a mark for each element, if the step at an element makes its
mark and no step removes one. -/
theorem foldlM_marks {f : β → α → Query β} {l : List α} {b b' : β} {P : β → Prop} {R : α → β → Prop}
    (hstep : ∀ a ∈ l, ∀ c d, P c → f c a = .ok d → P d ∧ R a d ∧ ∀ x ∈ l, R x c → R x d)
    (h : l.foldlM f b = .ok b') (hb : P b) : P b' ∧ ∀ a ∈ l, R a b' := by
  -- The elements before the current one have their marks already.
  suffices hgen : ∀ (done rest : List α) (c : β), done ++ rest = l → rest.foldlM f c = .ok b' → P c →
      (∀ a ∈ done, R a c) → P b' ∧ ∀ a ∈ l, R a b' from hgen [] l b rfl h hb (by simp)
  intro done rest
  induction rest generalizing done with
  | nil =>
    intro c hl hfold hc hdone
    rw [List.foldlM_nil, pure_eq_ok_iff] at hfold
    rw [List.append_nil] at hl
    exact hfold ▸ hl ▸ ⟨hc, hdone⟩
  | cons x rest ih =>
    intro c hl hfold hc hdone
    rw [List.foldlM_cons, bind_eq_ok_iff] at hfold
    obtain ⟨d, hd, hfold⟩ := hfold
    have hx : x ∈ l := by simp [← hl]
    obtain ⟨hPd, hRd, hkeep⟩ := hstep x hx c d hc hd
    refine ih (done ++ [x]) d (by simpa using hl) hfold hPd fun a ha ↦ ?_
    rcases List.mem_append.1 ha with ha | ha
    · exact hkeep a (by simp [← hl, ha]) (hdone a ha)
    · rw [List.mem_singleton.1 ha]
      exact hRd

theorem ok_bind {x : Query α} {f : α → Query β} {a : α} (hx : x = .ok a) (hf : ∃ b, f a = .ok b) :
    ∃ b, x >>= f = .ok b := by
  obtain ⟨b, hb⟩ := hf
  exact ⟨b, bind_eq_ok_iff.2 ⟨a, hx, hb⟩⟩

theorem foldlM_total {f : β → α → Query β} {l : List α} {b : β} (hstep : ∀ a ∈ l, ∀ c, ∃ d, f c a = .ok d) :
    ∃ b', l.foldlM f b = .ok b' := by
  induction l generalizing b with
  | nil => exact ⟨b, rfl⟩
  | cons a rest ih =>
    rw [List.foldlM_cons]
    obtain ⟨c, hc⟩ := hstep a List.mem_cons_self b
    exact ok_bind hc (ih fun x hx ↦ hstep x (List.mem_cons_of_mem _ hx))

/-- A fold that only adds to a collection adds what each of its elements contributes. -/
theorem foldlM_mem_iff {γ : Type} {f : β → α → Query β} {l : List α} {b b' : β} {M : β → γ → Prop}
    {C : α → γ → Prop} (hstep : ∀ a ∈ l, ∀ c d, f c a = .ok d → ∀ x, M d x ↔ M c x ∨ C a x)
    (h : l.foldlM f b = .ok b') (x : γ) : M b' x ↔ M b x ∨ ∃ a ∈ l, C a x := by
  induction l generalizing b with
  | nil =>
    rw [List.foldlM_nil, pure_eq_ok_iff] at h
    simp [h]
  | cons a rest ih =>
    rw [List.foldlM_cons, bind_eq_ok_iff] at h
    obtain ⟨c, hc, h⟩ := h
    rw [ih (fun y hy ↦ hstep y (List.mem_cons_of_mem _ hy)) h, hstep a List.mem_cons_self b c hc]
    simp [or_assoc]

theorem mem_of_mapM {f : α → Query β} {l : List α} {l' : List β} (h : l.mapM f = .ok l') {b : β} :
    b ∈ l' ↔ ∃ a ∈ l, f a = .ok b := by
  induction l generalizing l' with
  | nil =>
    rw [List.mapM_nil, pure_eq_ok_iff] at h
    simp [← h]
  | cons a rest ih =>
    simp only [List.mapM_cons, bind_eq_ok_iff, pure_eq_ok_iff] at h
    obtain ⟨c, hc, cs, hcs, rfl⟩ := h
    simp only [List.mem_cons, ih hcs, exists_eq_or_imp, hc, Except.ok.injEq, eq_comm (a := b)]

theorem ok_of_mapM {f : α → Query β} {l : List α} {l' : List β} (h : l.mapM f = .ok l') :
    ∀ a ∈ l, ∃ b, f a = .ok b := by
  induction l generalizing l' with
  | nil => simp
  | cons a rest ih =>
    simp only [List.mapM_cons, bind_eq_ok_iff] at h
    obtain ⟨b, hb, bs, hbs, -⟩ := h
    intro x hx
    rcases List.mem_cons.1 hx with rfl | hx
    · exact ⟨b, hb⟩
    · exact ih hbs x hx

theorem mapM_total {f : α → Query β} {l : List α} (h : ∀ a ∈ l, ∃ b, f a = .ok b) :
    ∃ l', l.mapM f = .ok l' := by
  induction l with
  | nil => exact ⟨[], rfl⟩
  | cons a rest ih =>
    obtain ⟨b, hb⟩ := h a List.mem_cons_self
    obtain ⟨bs, hbs⟩ := ih fun x hx ↦ h x (List.mem_cons_of_mem _ hx)
    refine ⟨b :: bs, ?_⟩
    simp only [List.mapM_cons, bind_eq_ok_iff, pure_eq_ok_iff]
    exact ⟨b, hb, bs, hbs, rfl⟩

end Query

namespace Stateful

variable {σ α β : Type}

theorem bind_eq_ok_iff {x : EStateM Failure σ α} {f : α → EStateM Failure σ β} {s s' : σ} {b : β} :
    (x >>= f) s = .ok b s' ↔ ∃ a t, x s = .ok a t ∧ f a t = .ok b s' := by
  change EStateM.bind x f s = _ ↔ _
  unfold EStateM.bind
  cases x s with
  | error e t => simp
  | ok a t =>
    constructor
    · exact fun h ↦ ⟨a, t, rfl, h⟩
    · rintro ⟨a', t', h, h'⟩
      obtain ⟨rfl, rfl⟩ := EStateM.Result.ok.inj h
      exact h'

theorem pure_eq_ok_iff {a b : α} {s s' : σ} :
    (pure a : EStateM Failure σ α) s = .ok b s' ↔ a = b ∧ s = s' := by
  change EStateM.Result.ok a s = _ ↔ _
  rw [EStateM.Result.ok.injEq]

theorem lift_eq_ok_iff {q : Query α} {a : α} {s s' : σ} :
    (liftM q : EStateM Failure σ α) s = .ok a s' ↔ q = .ok a ∧ s = s' := by
  cases q with
  | ok b =>
    change EStateM.Result.ok b s = _ ↔ _
    rw [EStateM.Result.ok.injEq, Except.ok.injEq]
  | error e =>
    change EStateM.Result.error e s = _ ↔ _
    simp

theorem get_eq_ok_iff {a s s' : σ} :
    (get : EStateM Failure σ σ) s = .ok a s' ↔ s = a ∧ s = s' := by
  change EStateM.Result.ok s s = _ ↔ _
  rw [EStateM.Result.ok.injEq]

theorem modify_eq_ok_iff {f : σ → σ} {s s' : σ} {u : PUnit} :
    (modify f : EStateM Failure σ PUnit) s = .ok u s' ↔ f s = s' := by
  change EStateM.Result.ok PUnit.unit (f s) = _ ↔ _
  rw [EStateM.Result.ok.injEq]
  exact ⟨fun h ↦ h.2, fun h ↦ ⟨rfl, h⟩⟩

theorem foldlM_preserves {f : β → α → EStateM Failure σ β} {l : List α} {b b' : β} {s s' : σ}
    (P : β → σ → Prop)
    (hstep : ∀ a ∈ l, ∀ c t d u, P c t → f c a t = .ok d u → P d u)
    (h : l.foldlM f b s = .ok b' s') (hb : P b s) : P b' s' := by
  induction l generalizing b s with
  | nil =>
    rw [List.foldlM_nil, pure_eq_ok_iff] at h
    obtain ⟨rfl, rfl⟩ := h
    exact hb
  | cons a rest ih =>
    rw [List.foldlM_cons, bind_eq_ok_iff] at h
    obtain ⟨c, t, hc, h⟩ := h
    exact ih (fun x hx ↦ hstep x (List.mem_cons_of_mem _ hx)) h
      (hstep a List.mem_cons_self b s c t hb hc)

/-- A fold keeps an invariant and leaves a mark for each element, if no step removes a mark. -/
theorem foldlM_marks {f : β → α → EStateM Failure σ β} {l : List α} {b b' : β} {s s' : σ}
    {P : β → σ → Prop} {R : α → σ → Prop}
    (hstep : ∀ a ∈ l, ∀ c t d u, P c t → f c a t = .ok d u → P d u ∧ R a u ∧ ∀ x, R x t → R x u)
    (h : l.foldlM f b s = .ok b' s') (hb : P b s) :
    P b' s' ∧ (∀ a ∈ l, R a s') ∧ ∀ x, R x s → R x s' := by
  induction l generalizing b s with
  | nil =>
    rw [List.foldlM_nil, pure_eq_ok_iff] at h
    obtain ⟨rfl, rfl⟩ := h
    exact ⟨hb, by simp, fun _ hx ↦ hx⟩
  | cons a rest ih =>
    rw [List.foldlM_cons, bind_eq_ok_iff] at h
    obtain ⟨c, t, hc, h⟩ := h
    obtain ⟨hPc, hRa, hkeep⟩ := hstep a List.mem_cons_self b s c t hb hc
    obtain ⟨hP, hR, hkeep'⟩ := ih (fun x hx ↦ hstep x (List.mem_cons_of_mem _ hx)) h hPc
    refine ⟨hP, fun x hx ↦ ?_, fun x hx ↦ hkeep' x (hkeep x hx)⟩
    rcases List.mem_cons.1 hx with rfl | hx
    · exact hkeep' x hRa
    · exact hR x hx

/-- The computation succeeds, with an answer and a final state that satisfy the condition. -/
def Yields (x : EStateM Failure σ α) (s : σ) (Q : α → σ → Prop) : Prop := ∃ a t, x s = .ok a t ∧ Q a t

theorem Yields.pure {a : α} {s : σ} {Q : α → σ → Prop} (h : Q a s) : Yields (pure a) s Q := ⟨a, s, rfl, h⟩

theorem Yields.bind {x : EStateM Failure σ α} {f : α → EStateM Failure σ β} {s : σ} {Q : α → σ → Prop}
    {R : β → σ → Prop} (hx : Yields x s Q) (hf : ∀ a t, Q a t → Yields (f a) t R) : Yields (x >>= f) s R := by
  obtain ⟨a, t, hx, hQ⟩ := hx
  obtain ⟨b, u, hb, hR⟩ := hf a t hQ
  exact ⟨b, u, bind_eq_ok_iff.2 ⟨a, t, hx, hb⟩, hR⟩

theorem Yields.lift {q : Query α} {s : σ} (h : ∃ a, q = .ok a) :
    Yields (liftM q) s fun a t ↦ q = .ok a ∧ s = t := by
  obtain ⟨a, ha⟩ := h
  exact ⟨a, s, lift_eq_ok_iff.2 ⟨ha, rfl⟩, ha, rfl⟩

theorem Yields.foldlM {f : β → α → EStateM Failure σ β} {l : List α} {b : β} {s : σ} (P : σ → Prop)
    (hstep : ∀ a ∈ l, ∀ c t, P t → Yields (f c a) t fun _ ↦ P) (hs : P s) :
    Yields (l.foldlM f b) s fun _ ↦ P := by
  induction l generalizing b s with
  | nil => exact .pure hs
  | cons a rest ih =>
    rw [List.foldlM_cons]
    exact (hstep a List.mem_cons_self b s hs).bind fun c t ht ↦
      ih (fun x hx ↦ hstep x (List.mem_cons_of_mem _ hx)) ht

/-- Whatever the computation answers, the answer and the final state satisfy the condition. -/
def Ensures (x : EStateM Failure σ α) (s : σ) (Q : α → σ → Prop) : Prop := ∀ a t, x s = .ok a t → Q a t

namespace Ensures

variable {x : EStateM Failure σ α} {f : α → EStateM Failure σ β} {s : σ} {Q : α → σ → Prop} {R : β → σ → Prop}

theorem pure {a : α} (h : Q a s) : Ensures (pure a) s Q := by
  intro b t hb
  obtain ⟨rfl, rfl⟩ := pure_eq_ok_iff.1 hb
  exact h

/-- A sequence ensures what its second part ensures after its first part. -/
theorem seq (h : ∀ a t, x s = .ok a t → Ensures (f a) t R) : Ensures (x >>= f) s R := by
  intro b u hb
  obtain ⟨a, t, ha, hb⟩ := bind_eq_ok_iff.1 hb
  exact h a t ha b u hb

theorem bind (hx : Ensures x s Q) (hf : ∀ a t, Q a t → Ensures (f a) t R) : Ensures (x >>= f) s R :=
  seq fun a t ha ↦ hf a t (hx a t ha)

theorem bind_pure {a : α} (h : Ensures (f a) s R) : Ensures (Pure.pure a >>= f) s R :=
  bind (Q := fun b t ↦ a = b ∧ s = t) (pure ⟨rfl, rfl⟩) fun _ _ ⟨hab, hst⟩ ↦ hab ▸ hst ▸ h

theorem bind_lift {q : Query α} (h : ∀ a, q = .ok a → Ensures (f a) s R) :
    Ensures ((liftM q : EStateM Failure σ α) >>= f) s R := by
  refine seq fun a t ha ↦ ?_
  obtain ⟨hq, rfl⟩ := lift_eq_ok_iff.1 ha
  exact h a hq

theorem bind_get {f : σ → EStateM Failure σ β} (h : Ensures (f s) s R) : Ensures (get >>= f) s R := by
  refine seq fun a t ha ↦ ?_
  obtain ⟨rfl, rfl⟩ := get_eq_ok_iff.1 ha
  exact h

theorem mono {Q' : α → σ → Prop} (h : Ensures x s Q) (hQ : ∀ a t, Q a t → Q' a t) : Ensures x s Q' :=
  fun a t ha ↦ hQ a t (h a t ha)

theorem foldlM {f : β → α → EStateM Failure σ β} {l : List α} {b : β} (P : β → σ → Prop)
    (hstep : ∀ a ∈ l, ∀ c t, P c t → Ensures (f c a) t P) (hb : P b s) : Ensures (l.foldlM f b) s P :=
  fun _ _ h ↦ foldlM_preserves P (fun a ha c t d u hc hd ↦ hstep a ha c t hc d u hd) h hb

theorem foldlM_marks {f : β → α → EStateM Failure σ β} {l : List α} {b : β} {P : β → σ → Prop} {R : α → σ → Prop}
    (hstep : ∀ a ∈ l, ∀ c t, P c t → Ensures (f c a) t fun d u ↦ P d u ∧ R a u ∧ ∀ x, R x t → R x u) (hb : P b s) :
    Ensures (l.foldlM f b) s fun b' t ↦ P b' t ∧ ∀ a ∈ l, R a t := by
  intro b' t h
  obtain ⟨hP, hR, -⟩ := Stateful.foldlM_marks (fun a ha c t d u hc hd ↦ hstep a ha c t hc d u hd) h hb
  exact ⟨hP, hR⟩

theorem forM {f : α → EStateM Failure σ PUnit} {l : List α} (P : σ → Prop)
    (hstep : ∀ a ∈ l, ∀ t, P t → Ensures (f a) t fun _ ↦ P) (hs : P s) : Ensures (l.forM f) s fun _ ↦ P := by
  induction l generalizing s with
  | nil => exact .pure hs
  | cons a rest ih =>
    exact (hstep a List.mem_cons_self s hs).bind fun _ t ht ↦
      ih (fun x hx ↦ hstep x (List.mem_cons_of_mem _ hx)) ht

/-- Each element leaves a mark, which no other element removes. -/
theorem forM_marks {f : α → EStateM Failure σ PUnit} {l : List α} {P : σ → Prop} {R : α → σ → Prop}
    (hstep : ∀ a ∈ l, ∀ t, P t → Ensures (f a) t fun _ u ↦ P u ∧ R a u ∧ ∀ b ∈ l, R b t → R b u) (hs : P s) :
    Ensures (l.forM f) s fun _ t ↦ P t ∧ ∀ a ∈ l, R a t := by
  -- The elements before the current one have their marks already.
  suffices hgen : ∀ (done rest : List α) (t : σ), done ++ rest = l → P t → (∀ a ∈ done, R a t) →
      Ensures (rest.forM f) t fun _ u ↦ P u ∧ ∀ a ∈ l, R a u from hgen [] l s rfl hs (by simp)
  intro done rest
  induction rest generalizing done with
  | nil =>
    intro t hl ht hdone
    rw [List.append_nil] at hl
    exact .pure ⟨ht, hl ▸ hdone⟩
  | cons a rest ih =>
    intro t hl ht hdone
    refine (hstep a (by simp [← hl]) t ht).bind fun _ u ⟨hu, hRa, hkeep⟩ ↦ ?_
    refine ih (done ++ [a]) u (by simpa using hl) hu fun b hb ↦ ?_
    rcases List.mem_append.1 hb with hb | hb
    · exact hkeep b (by simp [← hl, hb]) (hdone b hb)
    · rw [List.mem_singleton.1 hb]
      exact hRa

end Ensures

/-- The computation succeeded, and its answer and final state pass the test. -/
def succeeds (test : α → σ → Bool) : EStateM.Result Failure σ α → Bool
  | .ok a s => test a s
  | .error _ _ => false

theorem ok_of_succeeds {test : α → σ → Bool} {x : EStateM.Result Failure σ α} (h : succeeds test x = true) :
    ∃ a s, x = .ok a s ∧ test a s = true := by
  cases x with
  | ok a s => exact ⟨a, s, rfl, h⟩
  | error e s => contradiction

end Stateful

end PointsTo
