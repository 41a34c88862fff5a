import X64Backend.Proofs.Machine.Straight

/-! # Instructions away from their place

An instruction that neither jumps nor returns does the same wherever it stands: the
position and the count of steps are carried along, and of the program around it only the
values of its symbols matter.
-/

namespace X64Backend.Asm

/-- The symbols in a constant. -/
def Const.symbols : Const → List Name
  | .imm _ => []
  | .sym n => [n]

/-- The symbols whose values an operand needs. -/
def Operand.symbols : Operand → List Name
  | .const c => c.symbols
  | .mem m => m.disp.symbols
  | .reg _ | .absent => []

/-- The symbols whose values an instruction needs. A call to a symbol goes there by name. -/
def Instr.symbols : Instr → List Name
  | .mov a b | .cmp a b | .arith _ a b => a.symbols ++ b.symbols
  | .lea _ m => m.disp.symbols
  | .call (.const (.sym _)) => []
  | .call a | .imul _ a | .imul3 _ a _ | .idiv a | .neg a | .shl a _ | .push a => a.symbols
  | .movAbs _ _ | .set _ _ | .jump _ _ | .ret | .cqo | .popRbp | .label _ | .comment _
  | .absent => []

end X64Backend.Asm

namespace X64Backend.Machine

open Asm List

/-- Instructions behind which the next one follows, calls of built-in functions among them. -/
def proceeds : Instr → Bool
  | .call (.const (.sym n)) => (Builtin.ofName? n).isSome
  | x => falls x

/-- The state at another position, with another count of steps. -/
def State.moved (s : State) (ip : Int) (steps : Nat) : State := { s with ip, steps }

/-- The outcome with its state at another position. -/
def Outcome.moved (ip : Int) (steps : Nat) : Outcome → Outcome
  | .ok s => .ok (s.moved ip steps)
  | .error (t, s) => .error (t, s.moved ip steps)

namespace State

variable (s : State) (i : Int) (n : Nat)

@[simp] theorem get_moved (r : Reg) : (s.moved i n).get r = s.get r := rfl
@[simp] theorem ip_moved : (s.moved i n).ip = i := rfl
@[simp] theorem left_moved : (s.moved i n).left = s.left := rfl
@[simp] theorem right_moved : (s.moved i n).right = s.right := rfl
@[simp] theorem moved_self : s.moved s.ip s.steps = s := rfl

theorem set_moved (r : Reg) (v : Int64) : (s.moved i n).set r v = (s.set r v).moved i n := rfl

theorem advance_moved : (s.moved i n).advance = s.advance.moved (i + 1) (n + 1) := rfl

theorem load_moved (a : Int64) : (s.moved i n).load a = s.load a := rfl

theorem store_moved (a v : Int64) :
    (s.moved i n).store a v = (s.store a v).map (·.moved i n) := by
  unfold store
  cases checkAddress a <;> rfl

theorem push_moved (v : Int64) : (s.moved i n).push v = (s.push v).moved i n := by
  simp only [push, get_moved, set_moved, store_moved]
  cases (s.set .rsp (s.get .rsp - 8)).store ((s.set .rsp (s.get .rsp - 8)).get .rsp) v <;> rfl

theorem allocate_moved (size : Int64) :
    (s.moved i n).allocate size = (s.allocate size).map fun (a, t) => (a, t.moved i n) := by
  unfold allocate
  split
  · rfl
  · by_cases hlimit : heapLimit < s.heap + size
    · rw [if_pos (show heapLimit < (s.moved i n).heap + size from hlimit), if_pos hlimit]
      rfl
    · rw [if_neg (show ¬ heapLimit < (s.moved i n).heap + size from hlimit), if_neg hlimit]
      rfl

theorem allocateText_moved (text : Bytes) :
    (s.moved i n).allocateText text = (s.allocateText text).map fun (a, t) => (a, t.moved i n) := by
  unfold allocateText
  rw [allocate_moved]
  cases s.allocate (8 + 8 * Int64.ofNat text.length) <;> rfl

theorem giveBlock_moved (block : Except Trap (Int64 × State)) :
    (s.moved i n).giveBlock (block.map fun (a, t) => (a, t.moved i n)) =
      (s.giveBlock block).moved i n := by
  cases block <;> rfl

end State

section

variable {img img' : Image} (s : State) (i : Int) (n : Nat)

theorem Outcome.use_moved {α : Type} (a : Except Trap α) (f g : α → Outcome)
    (h : ∀ v, g v = (f v).moved i n) :
    Outcome.use (s.moved i n) a g = (Outcome.use s a f).moved i n := by
  cases a with
  | error t => rfl
  | ok v => exact h v

theorem Outcome.orElse_moved (a : Except Trap State) :
    Outcome.orElse (s.moved i n) (a.map (·.moved i n)) = (Outcome.orElse s a).moved i n := by
  cases a <;> rfl

/-- A built-in function does the same wherever it is called. -/
theorem Builtin.run_moved (b : Builtin) : b.run (s.moved i n) = (b.run s).moved i n := by
  cases b with
  | println | throw => exact Outcome.use_moved s i n _ _ _ fun _ => rfl
  | malloc =>
    rw [Builtin.run, State.allocate_moved, State.giveBlock_moved]
    rfl
  | intToString =>
    rw [Builtin.run, State.allocateText_moved, State.giveBlock_moved]
    rfl
  | stringToInt =>
    refine Outcome.use_moved s i n _ _ _ fun text => ?_
    cases Numeral.readDecimal text <;> rfl
  | stringConcat =>
    refine Outcome.use_moved s i n _ _ _ fun a => Outcome.use_moved s i n _ _ _ fun b => ?_
    rw [State.allocateText_moved, State.giveBlock_moved]

/-- Two programs give the same value to each of some symbols. -/
def SameSymbols (img img' : Image) (names : List Name) : Prop :=
  ∀ k ∈ names, img'.constValue (.sym k) = img.constValue (.sym k)

theorem SameSymbols.nil : SameSymbols img img' [] := fun _ hk => absurd hk not_mem_nil

theorem SameSymbols.const {c : Const} (h : SameSymbols img img' c.symbols) :
    img'.constValue c = img.constValue c := by
  cases c with
  | imm v => rfl
  | sym k => exact h k mem_cons_self

theorem SameSymbols.left {a b : List Name} (h : SameSymbols img img' (a ++ b)) :
    SameSymbols img img' a :=
  fun k hk => h k (mem_append_left b hk)

theorem SameSymbols.right {a b : List Name} (h : SameSymbols img img' (a ++ b)) :
    SameSymbols img img' b :=
  fun k hk => h k (mem_append_right a hk)

theorem address_moved {m : Mem} (h : SameSymbols img img' m.disp.symbols) :
    img'.address (s.moved i n) m = img.address s m := by
  unfold Image.address
  rw [h.const]
  rfl

theorem value_moved {a : Operand} (h : SameSymbols img img' a.symbols) :
    img'.value (s.moved i n) a = img.value s a := by
  cases a with
  | reg r | absent => rfl
  | const c => exact h.const
  | mem m =>
    simp only [Image.value, address_moved s i n h]
    rfl

theorem assign_moved {a : Operand} (h : SameSymbols img img' a.symbols) (v : Int64) :
    img'.assign (s.moved i n) a v = (img.assign s a v).map (·.moved i n) := by
  cases a with
  | reg r | const c | absent => rfl
  | mem m =>
    simp only [Image.assign, address_moved s i n h, State.store_moved]
    cases img.address s m <;> rfl

theorem update_moved {a b : Operand} (ha : SameSymbols img img' a.symbols)
    (hb : SameSymbols img img' b.symbols) (f : Int64 → Int64 → Option Int64) :
    img'.update (s.moved i n) a b f = (img.update s a b f).moved i n := by
  simp only [Image.update, value_moved s i n ha, value_moved s i n hb]
  refine Outcome.use_moved s i n _ _ _ fun d => Outcome.use_moved s i n _ _ _ fun v => ?_
  cases f d v with
  | none => rfl
  | some r => simp only [assign_moved s i n ha, Outcome.orElse_moved]

theorem use_pop_moved (f : Int64 × State → State)
    (hf : ∀ v t, f (v, t.moved i n) = (f (v, t)).moved i n) :
    Outcome.use (s.moved i n) (s.moved i n).pop (fun p => .ok (f p)) =
      (Outcome.use s s.pop fun p => .ok (f p)).moved i n := by
  simp only [State.pop, State.load_moved, State.get_moved, State.set_moved]
  cases s.load (s.get .rsp) with
  | error t => rfl
  | ok v =>
    show Except.ok (f (v, _)) = Except.ok _
    rw [hf]

/-- An instruction that the next one follows does the same at any position, in every
program that gives its symbols the same values. -/
theorem exec_moved {x : Instr} (hx : proceeds x = true) (h : SameSymbols img img' x.symbols) :
    img'.exec (s.moved i n) x = (img.exec s x).moved i n := by
  cases x with
  | movAbs dst v | cqo | label l | comment text | absent => rfl
  | mov dst src =>
    simp only [Image.exec, value_moved s i n h.right]
    refine Outcome.use_moved s i n _ _ _ fun v => ?_
    rw [assign_moved s i n h.left, Outcome.orElse_moved]
  | lea dst src =>
    simp only [Image.exec, address_moved s i n h]
    exact Outcome.use_moved s i n _ _ _ fun _ => rfl
  | cmp l r =>
    simp only [Image.exec, value_moved s i n h.left, value_moved s i n h.right]
    cases img.value s l with
    | error t => rfl
    | ok a => cases img.value s r <;> rfl
  | set cond dst =>
    simp only [Image.exec, State.set_moved, State.left_moved, State.right_moved]
    cases cond.holds (s.set dst 0).left (s.set dst 0).right with
    | error d => rfl
    | ok b => cases b <;> rfl
  | jump cond target | ret => cases hx
  | call target =>
    cases target with
    | const c =>
      cases c with
      | imm v => cases hx
      | sym k =>
        obtain ⟨b, hb⟩ := Option.isSome_iff_exists.mp hx
        simp only [Image.exec, Image.call, hb]
        exact b.run_moved s i n
    | reg r | mem m | absent => cases hx
  | arith op dst src => exact update_moved s i n h.left h.right _
  | imul dst src =>
    rw [Image.exec, Image.exec]
    exact update_moved s i n .nil h _
  | imul3 dst src factor =>
    simp only [Image.exec, value_moved s i n h]
    exact Outcome.use_moved s i n _ _ _ fun _ => rfl
  | idiv src =>
    simp only [Image.exec, value_moved s i n h]
    refine Outcome.use_moved s i n _ _ _ fun v => ?_
    split <;> rfl
  | neg dst | shl dst count =>
    rw [Image.exec, Image.exec]
    exact update_moved s i n h .nil _
  | push src =>
    simp only [Image.exec, value_moved s i n h]
    exact Outcome.use_moved s i n _ _ _ fun v => s.push_moved i n v
  | popRbp => exact use_pop_moved s i n (fun p => p.2.set .rbp p.1) fun _ _ => rfl

end

/-- Such an instruction leaves the position behind itself. -/
theorem ip_of_proceeds {img : Image} {s s' : State} {x : Instr} (hx : proceeds x = true)
    (h : img.exec s x = .ok s') : s'.ip = s.ip := by
  have hsame : SameSymbols img img x.symbols := fun _ _ => rfl
  have hself := exec_moved s s.ip s.steps hx hsame
  rw [State.moved_self, h] at hself
  have heq := Except.ok.inj hself
  rw [heq]
  rfl

end X64Backend.Machine
