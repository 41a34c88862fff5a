import X64Backend.Proofs.Heap
import X64Backend.Proofs.Text.Digits

/-! # Strings survive the machine

The loader writes the strings of the globals and built-in functions those that they make,
always in memory that nothing else uses, so every string below the heap pointer reads the same
afterwards.
-/

namespace X64Backend.Machine

open Asm

/-- A string lies below the heap pointer. -/
structure State.HasText (s : State) (a : Int64) (text : Bytes) : Prop where
  reads : s.readText a = .ok text
  below : a.toInt + textSize text ≤ s.heap.toInt

/-- The heap pointer did not go down, and the words below where it was are what they were. -/
structure State.Grows (s s' : State) : Prop where
  heap : s.heap.toInt ≤ s'.heap.toInt
  read : ∀ a, a.toInt < s.heap.toInt → s'.memory.read a = s.memory.read a

theorem State.HasText.of_grows {s s' : State} {a : Int64} {text : Bytes} (h : s.HasText a text)
    (hs : s.Grows s') : s'.HasText a text := by
  have htop : stackTop.toInt = 0x78000000 := rfl
  have hbelow := h.below
  obtain ⟨haligned, hlow, hend, hheld⟩ := readText_eq_ok_iff.mp h.reads
  refine ⟨readText_eq_ok_iff.mpr ⟨haligned, hlow, hend, ?_⟩, Int.le_trans hbelow hs.heap⟩
  exact hheld.congr (by omega) fun b _ hb => hs.read b (by omega)

/-- A heap pointer that is aligned and in range. -/
structure State.HeapReady (s : State) : Prop where
  aligned : s.heap.toInt % 8 = 0
  above : dataStart.toInt ≤ s.heap.toInt

/-- Where the heap has room for a string, the string is made and nothing before it changes. -/
theorem allocateText_eq_ok {s : State} (hs : s.HeapReady) {text : Bytes}
    (hroom : s.heap.toInt + textSize text ≤ heapLimit.toInt) :
    ∃ s', s.giveBlock (s.allocateText text) = .ok s' ∧ s'.HasText (s'.get .rax) text ∧
      s.Grows s' := by
  have hstart : dataStart.toInt = 0x1000 := rfl
  have hlimit : heapLimit.toInt = 0x77F00000 := rfl
  have htop : stackTop.toInt = 0x78000000 := rfl
  have habove := hs.above
  have hdef : textSize text = 8 + 8 * text.length := rfl
  have hsize : (8 + 8 * Int64.ofNat text.length).toInt = textSize text :=
    toInt_textSize (by omega)
  have hheap : (s.heap + (8 + 8 * Int64.ofNat text.length)).toInt = s.heap.toInt + textSize text := by
    rw [toInt_add_of_fits (by omega) (by omega), hsize]
  obtain ⟨u, hu⟩ := allocate_eq_ok (s := s) (by omega) (by omega)
    (show ¬ heapLimit < s.heap + (8 + 8 * Int64.ofNat text.length) by
      rw [Int64.not_lt, Int64.le_iff_toInt_le]; omega)
  obtain ⟨-, -, -, -, rfl⟩ := allocate_ok hu
  refine ⟨_, by rw [State.allocateText, hu]; rfl, ⟨?_, ?_⟩, ?_, ?_⟩
  · rw [State.get_set_self]
    exact readText_eq_ok_iff.mpr ⟨hs.aligned, habove, by omega, Memory.holds_writeText (by omega)⟩
  · rw [State.get_set_self]
    exact Int.le_of_eq hheap.symm
  · show _ ≤ (s.heap + _).toInt
    omega
  · intro a ha
    exact (Memory.read_writeText_of_lt (by omega) ha).trans
      (Memory.read_zeroRange_of_lt (by omega) (by omega) ha)

/-- Strings survive the machine. Globals with names of their own that fit below the stack read
as their contents in the machine that was loaded. Where the heap has room, joining two strings
below the heap pointer makes a new one of the bytes of both, and writing a word makes one that
reads as that word again, in every state with the same memory; every string below the heap
pointer stays as it was, and so does every word there. -/
theorem strings_survive {p : Program} (hnames : (p.globals.map (·.name)).Nodup)
    (hfit : globalsEnd dataStart.toInt p.globals ≤ heapLimit.toInt) {s : State}
    (hs : s.HeapReady) :
    (∀ g ∈ p.globals, ∃ a, (load p).1.globals[g.name]? = some a ∧
      (load p).2.HasText a g.content) ∧
    (∀ a b : Bytes, s.HasText (s.get (.machine .rdi)) a → s.HasText (s.get (.machine .rsi)) b →
      s.heap.toInt + textSize (a ++ b) ≤ heapLimit.toInt →
      ∃ s', Builtin.stringConcat.run s = .ok s' ∧ s'.HasText (s'.get .rax) (a ++ b) ∧
        (∀ x text, s.HasText x text → s'.HasText x text) ∧ s.Grows s') ∧
    (s.heap.toInt + textSize (Bytes.ofWord (s.get (.machine .rdi))) ≤ heapLimit.toInt →
      ∃ s', Builtin.intToString.run s = .ok s' ∧
        (∀ x text, s.HasText x text → s'.HasText x text) ∧ s.Grows s' ∧
        ∀ u : State, u.memory = s'.memory → u.get (.machine .rdi) = s'.get .rax →
          Builtin.stringToInt.run u = .ok (u.set .rax (s.get (.machine .rdi)))) := by
  refine ⟨fun g hg => ?_, fun a b ha hb hroom => ?_, fun hroom => ?_⟩
  · have hplaced := isPlaced_placeGlobals p.globals ∅ .empty dataStart rfl (Int.le_refl _) hfit
    have hheap := hplaced.heap
    have hlimit : heapLimit.toInt = 0x77F00000 := rfl
    have htop : stackTop.toInt = 0x78000000 := rfl
    obtain ⟨a, ha, hmod, hlow, hhigh, hheld⟩ := hplaced.held hnames g hg
    exact ⟨a, ha, readText_eq_ok_iff.mpr ⟨hmod, hlow, by omega, hheld⟩, hhigh⟩
  · obtain ⟨s', hrun, htext, hgrows⟩ := allocateText_eq_ok hs hroom
    refine ⟨s', ?_, htext, fun x text hx => hx.of_grows hgrows, hgrows⟩
    exact use_eq_ok.mpr ⟨a, ha.reads, use_eq_ok.mpr ⟨b, hb.reads, hrun⟩⟩
  · obtain ⟨s', hrun, htext, hgrows⟩ := allocateText_eq_ok hs hroom
    refine ⟨s', hrun, fun x text hx => hx.of_grows hgrows, hgrows, fun u hmemory hrdi => ?_⟩
    have hreads : u.readText (u.get (.machine .rdi)) = .ok (Bytes.ofWord (s.get (.machine .rdi))) := by
      rw [hrdi, readText_eq_ok_iff, hmemory, ← readText_eq_ok_iff]
      exact htext.reads
    refine use_eq_ok.mpr ⟨_, hreads, ?_⟩
    rw [Numeral.readDecimal_ofWord]

/-- A global is joined with itself, and the least word is written behind it and read again. -/
theorem oneBlock_strings_survive :
    (∃ s', Builtin.stringConcat.run
        (((load (oneBlock 16)).2.set (.machine .rdi) 4096).set (.machine .rsi) 4096) = .ok s' ∧
      s'.HasText (s'.get .rax) "abab") ∧
    ∃ s', Builtin.intToString.run ((load (oneBlock 16)).2.set (.machine .rdi) Int64.minValue) =
      .ok s' ∧ ∀ u : State, u.memory = s'.memory → u.get (.machine .rdi) = s'.get .rax →
        Builtin.stringToInt.run u = .ok (u.set .rax Int64.minValue) := by
  constructor
  · have hs : (((load (oneBlock 16)).2.set (.machine .rdi) 4096).set
        (.machine .rsi) 4096).HeapReady := ⟨by decide, by decide⟩
    obtain ⟨hglobals, hconcat, -⟩ := strings_survive (p := oneBlock 16) (by decide) (by decide) hs
    obtain ⟨a, ha, htext⟩ := hglobals ⟨"g", "ab"⟩ List.mem_cons_self
    obtain rfl : a = 4096 := Option.some.inj (ha.symm.trans (by decide +kernel))
    obtain ⟨s', hrun, hjoined, -⟩ := hconcat "ab" "ab" ⟨htext.reads, htext.below⟩
      ⟨htext.reads, htext.below⟩ (by decide +kernel)
    exact ⟨s', hrun, hjoined⟩
  · have hs : ((load (oneBlock 16)).2.set (.machine .rdi) Int64.minValue).HeapReady :=
      ⟨by decide, by decide⟩
    obtain ⟨-, -, hword⟩ := strings_survive (p := oneBlock 16) (by decide) (by decide) hs
    obtain ⟨s', hrun, -, -, hread⟩ := hword (by decide +kernel)
    exact ⟨s', hrun, hread⟩

end X64Backend.Machine
