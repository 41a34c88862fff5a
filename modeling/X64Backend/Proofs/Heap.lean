import Mathlib.Logic.Relation
import X64Backend.Proofs.Machine.Texts

/-! # The heap over whole sessions

Calls follow one another on one machine, and built-in functions take blocks of memory from
its heap. Blocks lie side by side behind the globals and below the stack, as long as no
block was asked for whose end is beyond the greatest word: the sum of the heap pointer and
such a size is negative, so it passes the test against the limit.
-/

namespace X64Backend.Machine

open Asm List

variable {s : State}

/-- A stretch of memory: where it starts and how many bytes it has. -/
structure Extent where
  start : Int
  size : Int

namespace Extent

/-- The address behind a stretch. -/
def finish (e : Extent) : Int := e.start + e.size

/-- Stretches that have no byte in common. -/
def Apart (e f : Extent) : Prop := e.finish ≤ f.start ∨ f.finish ≤ e.start

end Extent

/-- Where the strings of globals lie, one after another from an address on. -/
def globalExtents : Int → List Code.Global → List Extent
  | _, [] => []
  | start, g :: rest =>
    ⟨start, textSize g.content⟩ :: globalExtents (start + textSize g.content) rest

/-- The address behind the strings of globals. -/
def globalsEnd : Int → List Code.Global → Int
  | start, [] => start
  | start, g :: rest => globalsEnd (start + textSize g.content) rest

/-- The size of the block that a built-in function asks for. -/
def Builtin.request? (s : State) : Builtin → Option Int
  | .malloc => some (s.get (.machine .rdi)).toInt
  | .intToString => some (textSize (Bytes.ofWord (s.get (.machine .rdi))))
  | .stringConcat =>
    match s.readText (s.get (.machine .rdi)), s.readText (s.get (.machine .rsi)) with
    | .ok a, .ok b => some (textSize (a ++ b))
    | _, _ => none
  | .println | .stringToInt | .throw => none

/-- The size of the block that the next instruction asks for. -/
def Image.request? (img : Image) (s : State) : Option Int :=
  (builtin? (img.code.getD s.ip.toNat .absent)).bind (·.request? s)

/-- A state of a machine, and the blocks taken from its heap up to it, the last one first. -/
structure Moment where
  state : State
  blocks : List Extent

/-- The moment after an instruction that led to state `s`. A block that was asked for is
at the address in the result register. -/
def Moment.after (m : Moment) (img : Image) (s : State) : Moment where
  state := s
  blocks := match img.request? m.state with
    | some size => ⟨(s.get .rax).toInt, size⟩ :: m.blocks
    | none => m.blocks

/-- What happens on a machine: a call passes its arguments and starts, or does not get to
start; an instruction is executed, or stops. A call may start at any moment, since the step
limit can stop the one before it anywhere. -/
inductive Image.Follows (img : Image) : Moment → Moment → Prop
  | starts {m : Moment} {entry : Name} {i : Nat} {args : List Int64} {s : State}
      (hentry : img.labels[entry]? = some i)
      (h : (do ((← (m.state.alignStack args).passArgs args).push exitAddress) : Outcome) = .ok s) :
      Follows img m ⟨{ s with ip := i }, m.blocks⟩
  | refused {m : Moment} {args : List Int64} {t : Trap} {s : State}
      (h : (do ((← (m.state.alignStack args).passArgs args).push exitAddress) : Outcome) =
        .error (t, s)) : Follows img m ⟨s, m.blocks⟩
  | executes {m : Moment} {s : State} (hip : 0 ≤ m.state.ip) (h : img.step m.state = .ok s) :
      Follows img m (m.after img s)
  | stops {m : Moment} {f : Failure} {s : State} (hip : 0 ≤ m.state.ip)
      (h : img.step m.state = .error (f, s)) : Follows img m ⟨s, m.blocks⟩

/-- The moments of a session from a given one on. -/
abbrev Image.Session (img : Image) : Moment → Moment → Prop := Relation.ReflTransGen img.Follows

/-- The moment before the first call. -/
def Program.opening (p : Program) : Moment := ⟨(load p).2, []⟩

/-- What holds of the heap at every moment of a session. -/
structure Moment.Disciplined (m : Moment) (globals : List Code.Global) : Prop where
  aligned : m.state.heap.toInt % 8 = 0
  above : dataStart.toInt ≤ m.state.heap.toInt
  below : m.state.heap.toInt ≤ heapLimit.toInt
  inside : ∀ b ∈ m.blocks, dataStart.toInt ≤ b.start ∧ b.finish ≤ heapLimit.toInt
  apart : m.blocks.Pairwise Extent.Apart
  fromGlobals : ∀ b ∈ m.blocks, ∀ g ∈ globalExtents dataStart.toInt globals, b.Apart g
  written : ∀ a, m.state.memory.Written a →
    a.toInt % 8 = 0 ∧ dataStart.toInt ≤ a.toInt ∧ a.toInt < stackTop.toInt

/-- Neither the heap nor memory changes. -/
def State.Quiet (s s' : State) : Prop := s'.heap = s.heap ∧ s'.memory = s.memory

/-- A block is taken from the heap and its address given as the result. Only words of the
block are written. -/
structure State.Takes (s : State) (size : Int) (s' : State) : Prop where
  nonneg : 0 ≤ size
  aligned : size % 8 = 0
  heap : ∃ w : Int64, w.toInt = size ∧ s'.heap = s.heap + w ∧ ¬ heapLimit < s.heap + w
  given : s'.get .rax = s.heap
  memory : ∀ a, s'.memory.Written a →
    s.memory.Written a ∨ ∃ i : Nat, 8 * i < size ∧ a = s.heap + 8 * Int64.ofNat i

section

variable {s s' : State} {t : Trap}
variable {text : Bytes} {b : Builtin}

theorem giveBlock_error {x : Except Trap (Int64 × State)} (h : s.giveBlock x = .error (t, s')) :
    s.Quiet s' := by
  cases x with
  | ok r => cases h
  | error e =>
    cases h
    exact ⟨rfl, rfl⟩

theorem giveBlock_ok {x : Except Trap (Int64 × State)} (h : s.giveBlock x = .ok s') :
    ∃ a u, x = .ok (a, u) ∧ s' = u.set .rax a := by
  cases x with
  | ok r =>
    cases h
    exact ⟨r.1, r.2, rfl, rfl⟩
  | error e => cases h

theorem allocate_ok {size a : Int64} (h : s.allocate size = .ok (a, s')) :
    0 ≤ size.toInt ∧ size.toInt % 8 = 0 ∧ ¬ heapLimit < s.heap + size ∧ a = s.heap ∧
      s' = { s with heap := s.heap + size,
                    memory := s.memory.zeroRange s.heap (s.heap + size) } := by
  unfold State.allocate at h
  split at h
  · cases h
  next hsize =>
    grind [Int64.not_lt, Int64.le_iff_toInt_le, toInt_emod_eight]

/-- Taking a block for a string writes the words of the block and no others. -/
theorem allocateText_takes (htext : text.length < 2 ^ 58)
    (h : s.giveBlock (s.allocateText text) = .ok s') : s.Takes (textSize text) s' := by
  obtain ⟨a, u, halloc, rfl⟩ := giveBlock_ok h
  obtain ⟨⟨b, v⟩, hblock, hv⟩ := bind_eq_ok.mp halloc
  cases hv
  obtain ⟨hnonneg, haligned, hlimit, rfl, rfl⟩ := allocate_ok hblock
  rw [toInt_textSize htext] at hnonneg haligned
  refine ⟨hnonneg, haligned, ⟨_, toInt_textSize htext, rfl, hlimit⟩, State.get_set_self _ _ _, ?_⟩
  intro a ha
  rcases Memory.written_writeAll.mp ha with hold | ⟨i, hi, rfl⟩
  · exact .inl (Memory.written_of_zeroRange hold)
  · grind [length_cons, length_map, textSize]

theorem malloc_takes {size : Int64} (h : s.giveBlock (s.allocate size) = .ok s') :
    s.Takes size.toInt s' := by
  obtain ⟨a, u, halloc, rfl⟩ := giveBlock_ok h
  obtain ⟨hnonneg, haligned, hlimit, rfl, rfl⟩ := allocate_ok halloc
  exact ⟨hnonneg, haligned, ⟨size, rfl, rfl, hlimit⟩, State.get_set_self _ _ _,
    fun a ha => .inl (Memory.written_of_zeroRange ha)⟩

theorem length_ofWord_lt (v : Int64) : (Bytes.ofWord v).length < 2 ^ 58 := by
  have hdigits {n : Nat} (hn : n < 10 ^ 20) : (Bytes.ofNat n).length ≤ 20 := by
    rw [Bytes.ofNat, Bytes.digits, length_map]
    exact (Nat.length_toDigits_le_iff (by decide) (by decide)).mpr hn
  have hlo := v.le_toInt
  have hhi := v.toInt_lt
  unfold Bytes.ofWord Bytes.ofInt
  split
  next n hn =>
    rw [Int.ofNat_eq_natCast] at hn
    have := hdigits (n := n) (by omega)
    omega
  next n hn =>
    have := hdigits (n := n + 1) (by omega)
    simp only [length_cons]
    omega

theorem Builtin.takes_of_request {size : Int} (hrequest : b.request? s = some size)
    (h : b.run s = .ok s') : s.Takes size s' := by
  cases b with
  | malloc =>
    cases hrequest
    exact malloc_takes h
  | intToString =>
    cases hrequest
    exact allocateText_takes (length_ofWord_lt _) h
  | stringConcat =>
    obtain ⟨x, hx, h⟩ := use_eq_ok.mp h
    obtain ⟨y, hy, h⟩ := use_eq_ok.mp h
    simp only [Builtin.request?, hx, hy, Option.some.injEq] at hrequest
    subst hrequest
    have hlx := length_readText_lt hx
    have hly := length_readText_lt hy
    exact allocateText_takes (by rw [length_append]; omega) h
  | println | stringToInt | throw => cases hrequest

theorem Builtin.quiet_of_no_request (hrequest : b.request? s = none) (h : b.run s = .ok s') :
    s.Quiet s' := by
  cases b with
  | malloc | intToString => cases hrequest
  | stringConcat =>
    obtain ⟨x, hx, h⟩ := use_eq_ok.mp h
    obtain ⟨y, hy, h⟩ := use_eq_ok.mp h
    simp [Builtin.request?, hx, hy] at hrequest
  | println =>
    obtain ⟨_, _, h⟩ := use_eq_ok.mp h
    cases h
    exact ⟨rfl, rfl⟩
  | stringToInt =>
    obtain ⟨_, _, h⟩ := use_eq_ok.mp h
    split at h <;> cases h
    exact ⟨rfl, rfl⟩
  | throw =>
    obtain ⟨_, _, h⟩ := use_eq_ok.mp h
    cases h

theorem quiet_of_use {α : Type} {x : Except Trap α} {f : α → Outcome}
    (h : Outcome.use s x f = .error (t, s')) (hf : ∀ a, f a = .error (t, s') → s.Quiet s') :
    s.Quiet s' := by
  cases x with
  | ok a => exact hf a h
  | error e =>
    cases h
    exact ⟨rfl, rfl⟩

theorem Builtin.quiet_of_error (h : b.run s = .error (t, s')) : s.Quiet s' := by
  cases b with
  | malloc | intToString => exact giveBlock_error h
  | stringConcat => exact quiet_of_use h fun _ h => quiet_of_use h fun _ => giveBlock_error
  | println =>
    refine quiet_of_use h fun _ h => ?_
    cases h
  | stringToInt =>
    refine quiet_of_use h fun _ h => ?_
    split at h <;> cases h
    exact ⟨rfl, rfl⟩
  | throw =>
    refine quiet_of_use h fun _ h => ?_
    cases h
    exact ⟨rfl, rfl⟩

end

/-- Whatever is kept when a word is stored is kept while arguments are passed. -/
theorem State.passArgs_leaves {P : State → Prop} (hP : ∀ s s', P s → s.Works s' → P s') (hs : P s)
    (args : List Int64) : (s.passArgs args).Leaves P := by
  have hpush {s : State} (hs : P s) (vs : List Int64) :
      Outcome.Leaves P (vs.foldlM State.push s) := by
    induction vs generalizing s with
    | nil => exact hs
    | cons v rest ih =>
      rw [foldlM_cons]
      exact ((s.push_leaves v).imp fun s' h => hP s s' hs h).bind fun s' hs' => ih hs'
  exact (hpush hs _).bind fun s' hs' =>
    List.foldlRecOn _ _ hs' fun s hs r _ => hP s _ hs (.of_eq rfl rfl rfl)

theorem State.startCall_leaves {P : State → Prop} (hP : ∀ s s', P s → s.Works s' → P s') (hs : P s)
    (args : List Int64) :
    Outcome.Leaves P (do ((← (s.alignStack args).passArgs args).push exitAddress)) := by
  have haligned : P (s.alignStack args) := by
    unfold State.alignStack
    split
    · exact hs
    · exact hP s _ hs (.of_eq rfl rfl rfl)
  exact (State.passArgs_leaves hP haligned args).bind fun s' hs' =>
    (s'.push_leaves _).imp fun u h => hP s' u hs' h

/-- The heap is disciplined, and all that was taken lies before it. -/
structure Moment.Sound (m : Moment) (globals : List Code.Global) : Prop
    extends m.Disciplined globals where
  taken : ∀ b ∈ m.blocks, b.finish ≤ m.state.heap.toInt
  placed : ∀ g ∈ globalExtents dataStart.toInt globals, g.finish ≤ m.state.heap.toInt

namespace Moment.Sound

variable {m : Moment} {globals : List Code.Global} {s : State}

theorem stores (h : m.Sound globals) (hs : m.state.Stores s) :
    Moment.Sound ⟨s, m.blocks⟩ globals := by
  obtain ⟨hheap, hmemory⟩ := hs
  refine ⟨⟨?_, ?_, ?_, h.inside, h.apart, h.fromGlobals, ?_⟩, ?_, ?_⟩
  · simpa only [hheap] using h.aligned
  · simpa only [hheap] using h.above
  · simpa only [hheap] using h.below
  · grind [h.written, Memory.written_write, checkAddress_eq_ok_iff]
  · simpa only [hheap] using h.taken
  · simpa only [hheap] using h.placed

/-- A block whose end is a word is taken from what is left of the heap. -/
theorem takes (h : m.Sound globals) {size : Int} (ht : m.state.Takes size s)
    (hfits : m.state.heap.toInt + size < 2 ^ 63) :
    Moment.Sound ⟨s, ⟨(s.get .rax).toInt, size⟩ :: m.blocks⟩ globals ∧
      m.state.heap.toInt ≤ s.heap.toInt := by
  obtain ⟨w, hw, hheap, hlimit⟩ := ht.heap
  have hnonneg := ht.nonneg
  have haligned := ht.aligned
  have habove := h.above
  have hmod := h.aligned
  have hstart : dataStart.toInt = 0x1000 := rfl
  have htop : heapLimit.toInt = 0x77F00000 := rfl
  have hstack : stackTop.toInt = 0x78000000 := rfl
  have hsum : (m.state.heap + w).toInt = m.state.heap.toInt + size := by
    rw [toInt_add_of_fits (by omega) (by omega), hw]
  have hend : s.heap.toInt = m.state.heap.toInt + size := by rw [hheap, hsum]
  have hbelow : m.state.heap.toInt + size ≤ heapLimit.toInt := by
    rw [← hsum]
    exact Int64.le_iff_toInt_le.mp (Int64.not_lt.mp hlimit)
  have hfinish : Extent.finish ⟨(s.get .rax).toInt, size⟩ = s.heap.toInt := by
    rw [Extent.finish, ht.given, hend]
  -- The new block ends where the heap now starts, and those before it ended below.
  refine ⟨⟨⟨?_, ?_, ?_, ?_, ?_, ?_, ?_⟩, ?_, ?_⟩, by omega⟩
  · show s.heap.toInt % 8 = 0
    omega
  · show _ ≤ s.heap.toInt
    omega
  · show s.heap.toInt ≤ _
    omega
  · intro b hb
    rcases mem_cons.mp hb with rfl | hb
    · rw [hfinish, ht.given]
      exact ⟨habove, by omega⟩
    · exact h.inside b hb
  · refine pairwise_cons.mpr ⟨fun b hb => .inr ?_, h.apart⟩
    rw [ht.given]
    exact h.taken b hb
  · intro b hb g hg
    rcases mem_cons.mp hb with rfl | hb
    · refine .inr ?_
      rw [ht.given]
      exact h.placed g hg
    · exact h.fromGlobals b hb g hg
  · intro a ha
    rcases ht.memory a ha with hold | ⟨i, hi, rfl⟩
    · exact h.written a hold
    · have hoffset := toInt_eight_mul (i := i) (by omega)
      rw [toInt_add_of_fits (by omega) (by omega), hoffset]
      omega
  · intro b hb
    rcases mem_cons.mp hb with rfl | hb
    · exact Int.le_of_eq hfinish
    · have := h.taken b hb
      show _ ≤ s.heap.toInt
      omega
  · intro g hg
    have := h.placed g hg
    show _ ≤ s.heap.toInt
    omega

end Moment.Sound

section

variable {img : Image} {m m' : Moment} {globals : List Code.Global}

theorem exec_of_builtin? {x : Instr} {b : Builtin} (hx : builtin? x = some b) (s : State) :
    img.exec s x = b.run s := by
  unfold builtin? at hx
  split at hx
  next n => simp only [Image.exec, Image.call, hx]
  next => cases hx

theorem Image.Follows.blocks_suffix (h : img.Follows m m') : m.blocks <:+ m'.blocks := by
  cases h with
  | starts | refused | stops => exact suffix_rfl
  | executes hip h =>
    grind [Moment.after, suffix_cons]

theorem Image.Session.blocks_suffix (h : img.Session m m') : m.blocks <:+ m'.blocks := by
  induction h with
  | refl => exact suffix_rfl
  | tail _ hstep ih => exact ih.trans hstep.blocks_suffix

theorem Image.exec_of_step {s s' : State} (h : img.step s = .ok s') :
    img.exec s.advance (img.code.getD s.ip.toNat .absent) = .ok s' := by
  unfold Image.step at h
  simp only at h
  split at h
  next u hu =>
    cases h
    exact hu
  next => cases h

theorem Image.exec_of_step_error {s s' : State} {f : Failure} (h : img.step s = .error (f, s')) :
    img.exec s.advance (img.code.getD s.ip.toNat .absent) = .error (f.trap, s') := by
  unfold Image.step at h
  simp only at h
  split at h
  · cases h
  next t u hu =>
    cases h
    exact hu

/-- An instruction that finishes stores a word, or takes the block it asks for. -/
theorem Image.step_ok_cases {s s' : State} (h : img.step s = .ok s') :
    (img.request? s = none ∧ s.Stores s') ∨ ∃ size, img.request? s = some size ∧ s.Takes size s' := by
  have hexec := exec_of_step h
  cases hb : builtin? (img.code.getD s.ip.toNat .absent) with
  | none =>
    have hleaves := img.exec_leaves s.advance hb
    rw [hexec] at hleaves
    exact .inl ⟨by rw [Image.request?, hb]; rfl, ⟨hleaves.heap, hleaves.memory⟩⟩
  | some b =>
    rw [exec_of_builtin? hb] at hexec
    have hrequest : img.request? s = b.request? s.advance := by
      rw [Image.request?, hb]
      rfl
    cases hr : b.request? s.advance with
    | none =>
      obtain ⟨hheap, hmemory⟩ := Builtin.quiet_of_no_request hr hexec
      exact .inl ⟨hrequest.trans hr, .of_eq hheap hmemory⟩
    | some size =>
      have ht := Builtin.takes_of_request hr hexec
      exact .inr ⟨size, hrequest.trans hr,
        ⟨ht.nonneg, ht.aligned, ht.heap, ht.given, ht.memory⟩⟩

/-- An instruction that stops takes no block. -/
theorem Image.step_error_stores {s s' : State} {f : Failure} (h : img.step s = .error (f, s')) :
    s.Stores s' := by
  have hexec := exec_of_step_error h
  cases hb : builtin? (img.code.getD s.ip.toNat .absent) with
  | none =>
    have hleaves := img.exec_leaves s.advance hb
    rw [hexec] at hleaves
    exact ⟨hleaves.1.heap, hleaves.1.memory⟩
  | some b =>
    rw [exec_of_builtin? hb] at hexec
    obtain ⟨hheap, hmemory⟩ := Builtin.quiet_of_error hexec
    exact .of_eq hheap hmemory

/-- What one event of a session keeps, if every block taken so far ends at a word. -/
theorem Image.Follows.sound (h : img.Follows m m') (hm : m.Sound globals)
    (hfits : ∀ b ∈ m'.blocks, b.finish < 2 ^ 63) :
    m'.Sound globals ∧ m.state.heap.toInt ≤ m'.state.heap.toInt := by
  have hstored (s : State) (hstores : m.state.Stores s) :
      Moment.Sound ⟨s, m.blocks⟩ globals ∧ m.state.heap.toInt ≤ s.heap.toInt :=
    ⟨hm.stores hstores, Int.le_of_eq (by rw [hstores.heap])⟩
  have hkeeps (s s' : State)
      (hs : Moment.Sound ⟨s, m.blocks⟩ globals ∧ m.state.heap.toInt ≤ s.heap.toInt)
      (hstores : s.Works s') :
      Moment.Sound ⟨s', m.blocks⟩ globals ∧ m.state.heap.toInt ≤ s'.heap.toInt :=
    ⟨hs.1.stores hstores.toStores, by rw [hstores.heap]; exact hs.2⟩
  cases h with
  | starts hentry hstart =>
    rename_i entry i args s
    have hleaves := State.startCall_leaves hkeeps ⟨hm, Int.le_refl _⟩ args
    rw [hstart] at hleaves
    exact hkeeps s _ hleaves (.of_eq rfl rfl rfl)
  | refused hstart =>
    rename_i args t s
    have hleaves := State.startCall_leaves hkeeps ⟨hm, Int.le_refl _⟩ args
    rw [hstart] at hleaves
    exact hleaves.1
  | executes hip hstep =>
    rename_i s
    rcases Image.step_ok_cases hstep with ⟨hrequest, hstores⟩ | ⟨size, hrequest, htakes⟩
    · simp only [Moment.after, hrequest]
      exact hstored s hstores
    · grind [Moment.after, mem_cons_self, Extent.finish, htakes.given, hm.takes]
  | stops hip hstep =>
    rename_i f s
    exact hstored s (Image.step_error_stores hstep)

/-- What a session keeps, by induction on its events. -/
theorem Image.Session.sound (h : img.Session m m') (hm : m.Sound globals)
    (hfits : ∀ b ∈ m'.blocks, b.finish < 2 ^ 63) :
    m'.Sound globals ∧ m.state.heap.toInt ≤ m'.state.heap.toInt := by
  induction h with
  | refl => exact ⟨hm, Int.le_refl _⟩
  | @tail u v _ hstep ih =>
    obtain ⟨hu, hle⟩ := ih fun b hb => hfits b (hstep.blocks_suffix.subset hb)
    obtain ⟨hv, hle'⟩ := hstep.sound hu hfits
    exact ⟨hv, Int.le_trans hle hle'⟩

end

theorem le_globalsEnd (start : Int) (globals : List Code.Global) :
    start ≤ globalsEnd start globals := by
  induction globals generalizing start with
  | nil => exact Int.le_refl _
  | cons g rest ih =>
    have := ih (start + textSize g.content)
    rw [globalsEnd]
    unfold textSize at this ⊢
    omega

/-- The globals of a list are placed from an address on. Every name leads to a string of its
own, and what stood before that address or under other names is kept. -/
structure IsPlaced (globals : List Code.Global) (start : Int) (table : Std.TreeMap Name Int64)
    (memory : Memory) (placed : Std.TreeMap Name Int64 × Memory × Int64) : Prop where
  heap : placed.2.2.toInt = globalsEnd start globals
  aligned : placed.2.2.toInt % 8 = 0
  above : start ≤ placed.2.2.toInt
  before : ∀ e ∈ globalExtents start globals, e.finish ≤ placed.2.2.toInt
  written : ∀ a, placed.2.1.Written a → memory.Written a ∨
    a.toInt % 8 = 0 ∧ dataStart.toInt ≤ a.toInt ∧ a.toInt < stackTop.toInt
  names : ∀ n ∉ globals.map (·.name), placed.1[n]? = table[n]?
  table : ∀ (n : Name) (a : Int64), placed.1[n]? = some a → table[n]? = some a ∨
    ∃ g ∈ globals, g.name = n ∧ ⟨a.toInt, textSize g.content⟩ ∈ globalExtents start globals
  held : (globals.map (·.name)).Nodup → ∀ g ∈ globals, ∃ a : Int64, placed.1[g.name]? = some a ∧
    a.toInt % 8 = 0 ∧ start ≤ a.toInt ∧ a.toInt + textSize g.content ≤ placed.2.2.toInt ∧
      placed.2.1.Holds a g.content
  read : ∀ a : Int64, a.toInt < start → placed.2.1.read a = memory.read a

theorem isPlaced_placeGlobals (globals : List Code.Global) (table : Std.TreeMap Name Int64)
    (memory : Memory) (address : Int64) (haligned : address.toInt % 8 = 0)
    (habove : dataStart.toInt ≤ address.toInt)
    (hfit : globalsEnd address.toInt globals ≤ heapLimit.toInt) :
    IsPlaced globals address.toInt table memory
      (Image.placeGlobals globals (table, memory, address)) := by
  have hstart : dataStart.toInt = 0x1000 := rfl
  have hlimit : heapLimit.toInt = 0x77F00000 := rfl
  have htop : stackTop.toInt = 0x78000000 := rfl
  -- On the globals still to be placed, from where those before them ended.
  induction globals generalizing table memory address with
  | nil =>
    exact ⟨rfl, haligned, Int.le_refl _, by simp [globalExtents], fun a ha => .inl ha,
      fun n _ => rfl, fun n a ha => .inl ha, fun _ g hg => (nomatch hg), fun a _ => rfl⟩
  | cons g rest ih =>
    rw [globalsEnd] at hfit
    have hbound := Int.le_trans (le_globalsEnd _ rest) hfit
    have hsize : textSize g.content = 8 + 8 * g.content.length := rfl
    have hnext := toInt_behind_text habove hbound
    have hrest := ih (table.insert g.name address) (memory.writeText address g.content)
      (address + 8 + 8 * Int64.ofNat g.content.length) (by omega) (by omega)
      (by rw [hnext]; exact hfit)
    rw [hnext] at hrest
    refine ⟨hrest.heap, hrest.aligned, ?_, ?_, ?_, fun n hn => ?_, ?_, fun hnames g' hg' => ?_,
      fun a ha => ?_⟩
    · have := hrest.above
      rw [Image.placeGlobals]
      omega
    · intro e he
      rcases mem_cons.mp he with rfl | he
      · exact hrest.above
      · exact hrest.before e he
    · intro a ha
      rcases hrest.written a ha with hold | hnew
      · rcases Memory.written_writeAll.mp hold with hold | ⟨i, hi, rfl⟩
        · exact .inl hold
        · simp only [length_cons, length_map] at hi
          have hoffset := toInt_eight_mul (i := i) (by omega)
          refine .inr ?_
          rw [toInt_add_of_fits (by omega) (by omega), hoffset]
          omega
      · exact .inr hnew
    · rw [map_cons, mem_cons, not_or] at hn
      rw [Image.placeGlobals, hrest.names n hn.2, Std.TreeMap.getElem?_insert,
        if_neg fun h => hn.1 (Std.LawfulEqCmp.eq_of_compare h).symm]
    · intro n a ha
      rcases hrest.table n a ha with hold | ⟨g', hg', hn, he⟩
      · rw [Std.TreeMap.getElem?_insert] at hold
        split at hold
        next hname =>
          cases hold
          refine .inr ⟨g, mem_cons_self, Std.LawfulEqCmp.eq_of_compare hname, ?_⟩
          exact mem_cons_self
        next => exact .inl hold
      · exact .inr ⟨g', mem_cons_of_mem _ hg', hn, mem_cons_of_mem _ he⟩
    · rw [map_cons, nodup_cons] at hnames
      rcases mem_cons.mp hg' with rfl | hg'
      · refine ⟨address, ?_, haligned, Int.le_refl _, hrest.above, ?_⟩
        · rw [Image.placeGlobals, hrest.names _ hnames.1, Std.TreeMap.getElem?_insert_self]
        · exact (Memory.holds_writeText (by omega)).congr (by omega)
            fun b _ hb => hrest.read b hb
      · obtain ⟨a, ha, hmod, hlow, hhigh, hheld⟩ := hrest.held hnames.2 g' hg'
        exact ⟨a, ha, hmod, by omega, hhigh, hheld⟩
    · rw [Image.placeGlobals, hrest.read a (by omega), Memory.read_writeText_of_lt (by omega) ha]

/-- The opening moment of a program whose globals fit below the stack. -/
theorem opening_sound {p : Program} (hfit : globalsEnd dataStart.toInt p.globals ≤ heapLimit.toInt) :
    (Program.opening p).Sound p.globals := by
  have hplaced := isPlaced_placeGlobals p.globals ∅ .empty dataStart rfl (Int.le_refl _) hfit
  refine ⟨⟨hplaced.aligned, hplaced.above, ?_, by simp [Program.opening], by simp [Program.opening],
    by simp [Program.opening], ?_⟩, by simp [Program.opening], hplaced.before⟩
  · have := hplaced.heap
    show (Image.placeGlobals p.globals (∅, .empty, dataStart)).2.2.toInt ≤ _
    omega
  · intro a ha
    exact (hplaced.written a ha).resolve_left Memory.not_written_empty

/-- A run passes through moments of a session. -/
theorem Image.Session.run (img : Image) (limits : Limits) (fuel : Nat) (m : Moment) :
    ∃ u, img.Session m u ∧ u.state = (img.run limits fuel m.state).2 := by
  induction fuel generalizing m with
  | zero => exact ⟨m, .refl, rfl⟩
  | succ fuel ih =>
    rw [Image.run]
    by_cases hip : m.state.ip < 0
    · rw [if_pos hip]
      exact ⟨m, .refl, rfl⟩
    rw [if_neg hip]
    cases limits.stop? img m.state with
    | some t => exact ⟨m, .refl, rfl⟩
    | none =>
      have hip := Int.not_lt.mp hip
      cases hstep : img.step m.state with
      | ok s =>
        obtain ⟨u, hu, hstate⟩ := ih (m.after img s)
        exact ⟨u, .head (.executes hip hstep) hu, hstate⟩
      | error e => exact ⟨_, .single (.stops hip hstep), rfl⟩

/-- Every call leads from a moment of a session to another. -/
theorem Image.Session.call (img : Image) (limits : Limits) (entry : Name) (args : List Int64)
    (m : Moment) :
    ∃ u, img.Session m u ∧ u.state = (img.callFunction limits entry args m.state).2 := by
  unfold Image.callFunction
  cases hentry : img.labels[entry]? with
  | none => exact ⟨m, .refl, rfl⟩
  | some i =>
    cases hstart : (do ((← (m.state.alignStack args).passArgs args).push exitAddress) : Outcome)
      with
    | error e => exact ⟨_, .single (.refused hstart), rfl⟩
    | ok s =>
      obtain ⟨u, hu, hstate⟩ := Image.Session.run img limits
        (limits.fuel { s with ip := i }) ⟨{ s with ip := i }, m.blocks⟩
      refine ⟨u, .head (.starts hentry hstart) hu, hstate.trans ?_⟩
      simp only
      split
      next h => rw [h]
      next h => rw [h]

/-- The heap discipline over whole sessions. Take a program whose globals fit below the
stack. Its table leads to the strings of its globals, every call leads from a moment of a
session to a later one, and at every moment the following holds if and only if no block
was taken so far whose end is beyond the greatest word: the heap pointer keeps to its range
and is not below where it was, blocks lie in that range apart from each other and from the
globals, and only words that can be used were written. -/
theorem disciplined_iff_blocks_fit {p : Program}
    (hfit : globalsEnd dataStart.toInt p.globals ≤ heapLimit.toInt) {m m' : Moment}
    (hm : (load p).1.Session (Program.opening p) m) (hm' : (load p).1.Session m m') :
    (∀ n a, (load p).1.globals[n]? = some a → ∃ g ∈ p.globals, g.name = n ∧
      ⟨a.toInt, textSize g.content⟩ ∈ globalExtents dataStart.toInt p.globals) ∧
    (∀ limits entry args, ∃ u, (load p).1.Session m' u ∧
      u.state = ((load p).1.callFunction limits entry args m'.state).2) ∧
    ((m'.Disciplined p.globals ∧ m.state.heap.toInt ≤ m'.state.heap.toInt) ↔
      ∀ b ∈ m'.blocks, b.finish < 2 ^ 63) := by
  refine ⟨?_, fun limits entry args => Image.Session.call _ limits entry args m', ?_, ?_⟩
  · intro n a ha
    have hplaced := isPlaced_placeGlobals p.globals ∅ .empty dataStart rfl (Int.le_refl _) hfit
    exact (hplaced.table n a ha).resolve_left (by simp)
  · rintro ⟨hdisciplined, _⟩ b hb
    have hlimit : heapLimit.toInt = 0x77F00000 := rfl
    have := (hdisciplined.inside b hb).2
    omega
  · intro hfits
    have hearlier : ∀ b ∈ m.blocks, b.finish < 2 ^ 63 :=
      fun b hb => hfits b (hm'.blocks_suffix.subset hb)
    obtain ⟨hsound, _⟩ := hm.sound (opening_sound hfit) hearlier
    obtain ⟨hsound', hle⟩ := hm'.sound hsound hfits
    exact ⟨hsound'.toDisciplined, hle⟩

/-- A program with a global of two bytes that takes a block of some size. -/
def oneBlock (size : Int64) : Program where
  globals := [⟨"g", "ab"⟩]
  funcs := ["f"]
  code := [.label "f", .movAbs (.machine .rdi) size, .call (.const (.sym "_builtin_malloc")), .ret]

/-- A block can be taken if its size is a multiple of eight and the sum passes the test. -/
theorem allocate_eq_ok {size : Int64} (hsize : 0 ≤ size.toInt) (hmod : size.toInt % 8 = 0)
    (hlimit : ¬ heapLimit < s.heap + size) : ∃ u, s.allocate size = .ok (s.heap, u) := by
  have hneg : ¬ size < 0 := Int64.not_lt.mpr (Int64.le_iff_toInt_le.mpr hsize)
  have hmod := toInt_emod_eight.mpr hmod
  unfold State.allocate
  simp [hneg, hmod, hlimit]

/-- A call of that program takes its block behind the global. -/
theorem oneBlock_session (size : Int64) (hsize : 0 ≤ size.toInt) (hmod : size.toInt % 8 = 0)
    (hlimit : ¬ heapLimit < 4120 + size) :
    ∃ m, (load (oneBlock size)).1.Session (Program.opening (oneBlock size)) m ∧
      m.blocks = [⟨4120, size.toInt⟩] := by
  obtain ⟨s, hstart⟩ : ∃ s : State, (do ((← ((load (oneBlock 0)).2.alignStack
      []).passArgs []).push exitAddress) : Outcome) = .ok s := ⟨_, rfl⟩
  have hheap : s.heap = 4120 := by
    have hopening : (load (oneBlock 0)).2.heap = 4120 := by decide
    have := State.startCall_leaves (P := fun s => s.heap = 4120)
      (fun s s' hs h => h.heap.trans hs) hopening []
    rwa [hstart] at this
  have hentry : (load (oneBlock 0)).1.labels[Bytes.ofString "f"]? = some 0 := by rfl
  let s₁ : State := { s with ip := (0 : Nat) }
  have hlabel : (load (oneBlock size)).1.step s₁ = .ok s₁.advance := Image.step_ok rfl rfl rfl
  let s₂ : State := s₁.advance.advance.set (.machine .rdi) size
  have hmove : (load (oneBlock size)).1.step s₁.advance = .ok s₂ := Image.step_ok rfl rfl rfl
  have hrdi : s₂.get (.machine .rdi) = size := State.get_set_self _ _ _
  obtain ⟨u, hu⟩ := allocate_eq_ok (s := s₂.advance) hsize hmod
    (show ¬ heapLimit < s.heap + size by rw [hheap]; exact hlimit)
  have hcall : (load (oneBlock size)).1.step s₂ = .ok (u.set .rax s.heap) := by
    refine Image.step_ok (x := .call (.const (.sym "_builtin_malloc"))) rfl rfl ?_
    rw [exec_of_builtin? (b := .malloc) (by decide), Builtin.run, State.get_advance, hrdi, hu]
    rfl
  have hquiet₁ : (load (oneBlock size)).1.request? s₁ = none := rfl
  have hquiet₂ : (load (oneBlock size)).1.request? s₁.advance = none := rfl
  have hrequest : (load (oneBlock size)).1.request? s₂ = some size.toInt := by
    show some (s₂.get (.machine .rdi)).toInt = _
    rw [hrdi]
  refine ⟨_, .tail (.tail (.tail (.single (.starts hentry hstart)) (.executes ?_ hlabel))
    (.executes ?_ hmove)) (.executes ?_ hcall), ?_⟩
  · exact Int.le_refl 0
  · exact Int.zero_le_ofNat 1
  · exact Int.zero_le_ofNat 2
  · simp only [Moment.after, s₁, s₂] at hquiet₁ hquiet₂ hrequest ⊢
    rw [hrequest, hquiet₂, hquiet₁, State.get_set_self, hheap]
    rfl

/-- A session with a block of sixteen bytes is disciplined. -/
theorem oneBlock_disciplined : ∃ m,
    globalsEnd dataStart.toInt (oneBlock 16).globals ≤ heapLimit.toInt ∧
    (load (oneBlock 16)).1.Session (Program.opening (oneBlock 16)) m ∧
    m.blocks = [⟨4120, 16⟩] ∧ m.Disciplined (oneBlock 16).globals := by
  obtain ⟨m, hm, hblocks⟩ := oneBlock_session 16 (by decide) (by decide) (by decide)
  have hfit : globalsEnd dataStart.toInt (oneBlock 16).globals ≤ heapLimit.toInt := by decide
  refine ⟨m, hfit, hm, hblocks, ?_⟩
  refine ((disciplined_iff_blocks_fit hfit .refl hm).2.2.mpr ?_).1
  intro b hb
  rw [hblocks, List.mem_singleton] at hb
  rw [hb]
  decide

/-- A block of nearly the greatest size is taken, and the heap is not disciplined any more. -/
theorem hugeBlock_not_disciplined : ∃ m,
    (load (oneBlock 0x7FFFFFFFFFFFFFF8)).1.Session (Program.opening (oneBlock 0x7FFFFFFFFFFFFFF8)) m ∧
    m.blocks = [⟨4120, 0x7FFFFFFFFFFFFFF8⟩] ∧
    ¬ m.Disciplined (oneBlock 0x7FFFFFFFFFFFFFF8).globals := by
  obtain ⟨m, hm, hblocks⟩ := oneBlock_session 0x7FFFFFFFFFFFFFF8 (by decide) (by decide) (by decide)
  refine ⟨m, hm, hblocks, fun h => ?_⟩
  have := (h.inside _ (by rw [hblocks]; exact mem_singleton_self _)).2
  exact absurd this (by decide)

end X64Backend.Machine
