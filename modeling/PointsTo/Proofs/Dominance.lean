import PointsTo.Proofs.Regularity

/-!
# Checking that a program is regular

Whether a value is defined on every way to its use is a question about all paths through a function.  A
table of blocks that control passes on the way to each block answers it, and such a table can be
checked edge by edge.
-/

namespace PointsTo

namespace Function

variable {fn : Function} {table : BlockId → List BlockId} {past : List BlockId} {b : BlockId}

/-- The table lists only blocks that control passes on every way to a block. -/
def Passes (fn : Function) (table : BlockId → List BlockId) : Prop :=
  table 0 = [] ∧ ∀ b < fn.blocks.length, ∀ c ∈ fn.successors b, ∀ d ∈ table c, d = b ∨ d ∈ table b

instance : Decidable (fn.Passes table) := inferInstanceAs (Decidable (_ ∧ _))

theorem Passes.mem (h : fn.Passes table) (harrives : fn.Arrives past b) : ∀ d ∈ table b, d ∈ past := by
  induction harrives with
  | entry => simp [h.1]
  | @next past b c _ hc ih =>
    have hb : b < fn.blocks.length := by
      by_contra hlt
      simp [successors, List.getElem?_eq_none (Nat.not_lt.1 hlt)] at hc
    intro d hd
    rcases h.2 b hb c hc d hd with rfl | hd
    · simp
    · simp [ih d hd]

end Function

namespace Program

variable {prog : Program} {v w : ValueId} {f : FuncId} {inst : Instruction}

def instructionAt? (prog : Program) (v : ValueId) : Option Instruction :=
  match prog.kindAt v with
  | some (.instruction inst) => some inst
  | _ => none

theorem instructionAt?_eq_some_iff : prog.instructionAt? v = some inst ↔ prog.kindAt v = some (.instruction inst) := by
  unfold instructionAt?
  split
  · rename_i inst' h
    simp [h]
  · rename_i h
    simpa using h inst

/-- The operand is defined where the table says so, or earlier in the block. -/
def Settled (prog : Program) (table : FuncId → BlockId → List BlockId) (v w : ValueId)
    (inst source : Instruction) : Prop :=
  source.block ∈ table inst.function inst.block ∨
    (source.block = inst.block ∧
      (prog.instsOf inst.function inst.block).idxOf w < (prog.instsOf inst.function inst.block).idxOf v)

instance {table : FuncId → BlockId → List BlockId} {source : Instruction} : Decidable
    (prog.Settled table v w inst source) :=
  inferInstanceAs (Decidable (_ ∨ _ ∧ _))

/-- Every block can be reached, and the table tells for every use that its value is defined. -/
def OrderlyBy (prog : Program) (table : FuncId → BlockId → List BlockId) : Prop :=
  (∀ f < prog.functions.length, ∀ fn ∈ prog.functions[f]?, (∀ b < fn.blocks.length, ∀ c ∈ fn.successors b,
    c < fn.blocks.length) ∧ (∀ b < fn.blocks.length, b ∈ fn.reachableBlocks.toOption.getD []) ∧ fn.Passes (table f)) ∧
  ∀ v < prog.values.length, ∀ inst ∈ prog.instructionAt? v, ∀ w ∈ inst.operands, ∀ source ∈ prog.instructionAt? w,
    source.function = inst.function ∧ (inst.isPhi = true ∨ prog.Settled table v w inst source)

instance {table : FuncId → BlockId → List BlockId} : Decidable (prog.OrderlyBy table) :=
  inferInstanceAs (Decidable ((∀ f < _, _) ∧ ∀ v < _, _))

theorem OrderlyBy.orderly {table : FuncId → BlockId → List BlockId} (h : prog.OrderlyBy table) : prog.Orderly := by
  have hfn {fn : Function} (hmem : fn ∈ prog.functions) : ∃ f, prog.functions[f]? = some fn ∧
      (∀ b < fn.blocks.length, ∀ c ∈ fn.successors b, c < fn.blocks.length) ∧
      (∀ b < fn.blocks.length, b ∈ fn.reachableBlocks.toOption.getD []) ∧ fn.Passes (table f) := by
    obtain ⟨f, hf⟩ := List.mem_iff_getElem?.1 hmem
    obtain ⟨hlt, -⟩ := List.getElem?_eq_some_iff.1 hf
    exact ⟨f, hf, h.1 f hlt fn hf⟩
  have hoperand {v w : ValueId} {inst source : Instruction} (hv : prog.kindAt v = some (.instruction inst))
      (hw : w ∈ inst.operands) (hsource : prog.kindAt w = some (.instruction source)) :=
    h.2 v (lt_of_kindAt hv) inst (instructionAt?_eq_some_iff.2 hv) w hw source (instructionAt?_eq_some_iff.2 hsource)
  constructor
  · intro fn b c hmem hc
    obtain ⟨f, -, hflows, -⟩ := hfn hmem
    refine hflows b ?_ c hc
    by_contra hlt
    simp [Function.successors, List.getElem?_eq_none (Nat.not_lt.1 hlt)] at hc
  · intro fn b hmem hb
    obtain ⟨f, -, -, hreachable, -⟩ := hfn hmem
    have hb := hreachable b hb
    cases hblocks : fn.reachableBlocks with
    | error e => simp [hblocks, Except.toOption] at hb
    | ok blocks =>
      simp only [hblocks, Except.toOption, Option.getD_some] at hb
      obtain ⟨before, after, hsplit⟩ := List.append_of_mem hb
      obtain ⟨past, harrives, -⟩ := Function.arrives_of_visited hblocks hsplit
      exact ⟨past, harrives⟩
  · intro v w inst source hv hw hsource
    exact (hoperand hv hw hsource).1
  · intro v w inst source fn past hv hphi hw hsource hf harrives
    rcases (hoperand hv hw hsource).2.resolve_left (by simp [hphi]) with hpassed | ⟨hblock, hbefore⟩
    · obtain ⟨hlt, -⟩ := List.getElem?_eq_some_iff.1 hf
      exact .inl ((h.1 _ hlt fn hf).2.2.mem harrives _ hpassed)
    · refine .inr ⟨hblock, fun {before after} hinsts ↦ ?_⟩
      rw [hinsts] at hbefore
      by_contra hw
      have hv : (before ++ v :: after).idxOf v ≤ before.length := by
        rw [List.idxOf_append]
        split
        · exact List.idxOf_le_length
        · simp
      simp only [List.idxOf_append, hw, if_false] at hbefore hv
      omega

/-! ## Operands -/

/-- Functions, null and integers are the same in every function. -/
def isShared (prog : Program) (w : ValueId) : Bool :=
  match prog.kindAt w with
  | some (.function _) | some (.constant .null) | some (.constant (.int _)) => true
  | _ => false

theorem refers_iff : prog.Refers f w ↔
    prog.home? w = some f ∨ (∃ g ∈ prog.globals, g.value = w) ∨ prog.isShared w = true := by
  constructor
  · intro h
    cases h with
    | own hhome => exact .inl hhome
    | global hg => exact .inr (.inl ⟨_, hg, rfl⟩)
    | function hkind | null hkind | int hkind => simp [isShared, hkind]
  · rintro (hhome | ⟨g, hg, rfl⟩ | hshared)
    · exact .own hhome
    · exact .global hg
    · unfold isShared at hshared
      split at hshared
      · exact .function ‹_›
      · exact .null ‹_›
      · exact .int ‹_›
      · contradiction

instance : Decidable (prog.Refers f w) := decidable_of_iff _ refers_iff.symm

/-- The call names a function that takes as many arguments. -/
def namesCallee (prog : Program) (callee : ValueId) (arguments : List ValueId) : Bool :=
  match prog.kindAt callee with
  | some (.function f) => (prog.functions[f]?).any fun fn ↦ arguments.length = fn.params.length
  | _ => false

/-- Whether the operands are those of the opcode. -/
def isFormed (prog : Program) : Opcode → List ValueId → Bool
  | .alloca _, operands => operands.isEmpty
  | .load, operands => operands.length = 1
  | .store, operands => operands.length = 2
  | .getElementPtr _, operands => 1 ≤ operands.length
  | .cast op, operands => (op = .bitcast || op = .ptrToInt || op = .intToPtr) && operands.length = 1
  | .phi, _ => true
  | .select, operands => operands.length = 3
  | .call, callee :: arguments => prog.namesCallee callee arguments
  | .ret, operands => operands.length ≤ 1
  | _, _ => false

theorem formed_of_isFormed {opcode : Opcode} {operands : List ValueId} (h : prog.isFormed opcode operands = true) :
    prog.Formed opcode operands := by
  unfold isFormed at h
  split at h
  · rw [List.isEmpty_iff.1 h]
    exact .alloca
  · obtain ⟨_, rfl⟩ := List.length_eq_one_iff.1 (of_decide_eq_true h)
    exact .load
  · obtain ⟨_, _, rfl⟩ := List.length_eq_two.1 (of_decide_eq_true h)
    exact .store
  · obtain ⟨_, _, rfl⟩ := List.exists_cons_of_length_pos (of_decide_eq_true h)
    exact .getElementPtr
  · simp only [Bool.and_eq_true, Bool.or_eq_true, decide_eq_true_eq, or_assoc] at h
    obtain ⟨_, rfl⟩ := List.length_eq_one_iff.1 h.2
    exact .cast h.1
  · exact .phi
  · obtain ⟨_, _, _, rfl⟩ := List.length_eq_three.1 (of_decide_eq_true h)
    exact .select
  · unfold namesCallee at h
    split at h
    · rename_i f hcallee
      cases hfn : prog.functions[f]? with
      | none => simp [hfn] at h
      | some fn => exact .call hcallee hfn (by simpa [hfn] using h)
    · contradiction
  · exact .ret (of_decide_eq_true h)
  · contradiction

/-- The global has null or an integer as its value at the start. -/
def isInitialized (prog : Program) (g : Global) : Bool :=
  g.initializer.any fun init ↦ match prog.kindAt init with
    | some (.constant .null) | some (.constant (.int _)) => true
    | _ => false

/-- A program whose operands are in order. -/
theorem regular_of_check {table : FuncId → BlockId → List BlockId} (horderly : prog.OrderlyBy table)
    (hinsts : ∀ v < prog.values.length, ∀ inst ∈ prog.instructionAt? v,
      prog.isFormed inst.opcode inst.operands = true ∧ ∀ w ∈ inst.operands, prog.Refers inst.function w)
    (hglobals : ∀ g ∈ prog.globals, prog.isInitialized g = true) : prog.Regular where
  toOrderly := horderly.orderly
  formed hv := formed_of_isFormed (hinsts _ (lt_of_kindAt hv) _ (instructionAt?_eq_some_iff.2 hv)).1
  refers hv hw := (hinsts _ (lt_of_kindAt hv) _ (instructionAt?_eq_some_iff.2 hv)).2 _ hw
  initialized {g} hg := by
    obtain ⟨init, hinit, hplain⟩ := (Option.any_eq_true _ _).1 (hglobals g hg)
    refine ⟨init, hinit, ?_⟩
    split at hplain
    · exact .inl ‹_›
    · exact .inr ⟨_, ‹_›⟩
    · contradiction

/-- The instruction takes the address of a pointer, or stores a pointer, or stores through a pointer of
its function. -/
def keepsAddress (prog : Program) (inst : Instruction) : Bool :=
  match inst.opcode, inst.operands with
  | .cast .ptrToInt, w :: _ => (prog.isPointer w).toOption == some true
  | .store, stored :: pointer :: _ =>
    (prog.isPointer stored).toOption == some true || prog.home? pointer == some inst.function
  | _, _ => true

theorem keepsAddresses_of_check
    (h : ∀ v < prog.values.length, ∀ inst ∈ prog.instructionAt? v, prog.keepsAddress inst = true) :
    prog.KeepsAddresses := by
  have hok {w : ValueId} (hw : (prog.isPointer w).toOption = some true) : prog.isPointer w = .ok true := by
    cases hpointer : prog.isPointer w <;> simp_all [Except.toOption]
  constructor
  · intro v w inst hv hop hw
    have hinst := h v (lt_of_kindAt hv) inst (instructionAt?_eq_some_iff.2 hv)
    obtain ⟨rest, hrest⟩ : ∃ rest, inst.operands = w :: rest :=
      List.head?_eq_some_iff.1 (by simpa [Instruction.operand?, List.head?_eq_getElem?] using hw)
    exact hok (by simpa [keepsAddress, hop, hrest] using hinst)
  · intro v stored pointer inst hv hop hidle hstored _ hpointer
    have hinst := h v (lt_of_kindAt hv) inst (instructionAt?_eq_some_iff.2 hv)
    obtain ⟨rest, hrest⟩ : ∃ rest, inst.operands = stored :: pointer :: rest := by
      cases hops : inst.operands with
      | nil => simp [Instruction.operand?, hops] at hstored
      | cons a rest =>
        cases rest <;> simp_all [Instruction.operand?]
    simp only [keepsAddress, hop, hrest, Bool.or_eq_true, beq_iff_eq] at hinst
    rcases hinst with hkept | hown
    · simp only [Idle, hop] at hidle
      simp [hidle stored hstored, Except.toOption] at hkept
    · exact hown

end Program

end PointsTo
