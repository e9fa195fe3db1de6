import MJ.Proofs.Array.Layout
import MJ.Proofs.Commit
import MJ.Proofs.Resolution
import MJ.Proofs.Storage

/-!
# Frames

The words that a procedure sets aside in its frame follow its parameters, one range after the
other.  The size of the frame is known when the procedure ends and stands in the `enter` at its
start, so that the machine opens a frame with all these words, in which the arguments come first.
A frame keeps its size as long as it is open.

## Main definitions

* `Assembler.handOut` — the words that a session sets aside in the open frame.
* `Assembler.frameBlocks`, `Assembler.frameWords` — ranges that follow each other, and how many
  words they have.
* `Machine.KeepsFrame` — steps during which a frame stays open.

## Main results

* `Assembler.handOut_eq` — the ranges that are handed out follow each other.
* `Machine.step_enter` — `enter` moves the arguments into the first words of a new frame.
* `Machine.KeepsFrame.frameSize?_eq` — an open frame keeps its size.
* `Assembler.frame_layout` — **the assembler and the machine agree on frames.**
-/

namespace MJ

namespace Assembler

/-- While a procedure is open, only two commands change it: the one that sets words of its frame
aside and the one that ends it. -/
theorem Command.procedure?_of_run {command : Command} {a b : Assembler} {p : Procedure}
    (hrun : command.run a = .ok () b) (hopen : a.procedure? = some p)
    (halloc : ∀ words, command ≠ .allocLocal words) (hexit : ∀ label, command ≠ .exit label) :
    b.procedure? = some p := by
  cases Command.changes hrun with
  | code | await | data | label | unfinished | resolving => exact hopen
  | frame _ words => exact absurd rfl (halloc words)
  | opening label params isMain hclosed =>
    -- a procedure does not begin inside of another one
    cases hclosed.symm.trans hopen
  | closing label => exact absurd rfl (hexit label)

/-! ### Words that are set aside -/

/-- Carries out commands and lists the words of the open frame that they set aside, as the caller is
told of them. -/
def handOut : List Command → Asm (List Machine.Block)
  | [] => pure []
  | .allocLocal words :: commands => do
    let start ← allocLocal words
    let blocks ← handOut commands
    return ⟨start, words⟩ :: blocks
  | command :: commands => do
    command.run
    handOut commands

/-- The words that commands set aside if each range starts where the one before ends, and the first
at `start`. -/
def frameBlocks (start : Nat) : List Command → List Machine.Block
  | [] => []
  | .allocLocal words :: commands => ⟨start, words⟩ :: frameBlocks (start + words) commands
  | _ :: commands => frameBlocks start commands

/-- How many words of the open frame commands set aside. -/
def frameWords : List Command → Nat
  | [] => 0
  | .allocLocal words :: commands => words + frameWords commands
  | _ :: commands => frameWords commands

/-- The ranges that are handed out inside of a procedure follow each other, and the frame ends where
the last one does.  By induction on the commands, of which all but one leave the frame alone. -/
theorem handOut_eq {commands : List Command} {a b : Assembler} {p : Procedure}
    (hsession : session commands a = .ok () b) (hopen : a.procedure? = some p)
    (hinside : ∀ label, .exit label ∉ commands) :
    handOut commands a = .ok (frameBlocks p.size commands) b ∧
      b.procedure? = some { p with size := p.size + frameWords commands } := by
  induction commands generalizing a p with
  | nil =>
    obtain ⟨-, rfl⟩ := EStateM.Result.ok.inj hsession
    exact ⟨rfl, hopen⟩
  | cons command commands ih =>
    obtain ⟨c, hrun, hrest⟩ := session_cons.mp hsession
    have hlater : ∀ label, .exit label ∉ commands := fun label hmem =>
      hinside label (List.mem_cons_of_mem _ hmem)
    by_cases halloc : ∃ words, command = .allocLocal words
    · obtain ⟨words, rfl⟩ := halloc
      obtain ⟨start, c', halloc, hpure⟩ := Action.bind_eq_ok.mp hrun
      obtain ⟨-, rfl⟩ := EStateM.Result.ok.inj hpure
      obtain ⟨q, hq, rfl, rfl⟩ := allocLocal_eq_ok halloc
      obtain rfl := Option.some.inj (hopen.symm.trans hq)
      obtain ⟨hblocks, hprocedure⟩ := ih hrest rfl hlater
      refine ⟨?_, ?_⟩
      · rw [handOut, Action.bind_of_ok halloc, Action.bind_of_ok hblocks]
        rfl
      · rw [hprocedure, frameWords, Nat.add_assoc]
    · -- any other command leaves the open procedure as it is
      have hne : ∀ words, command ≠ .allocLocal words := fun words h => halloc ⟨words, h⟩
      have hexit : ∀ label, command ≠ .exit label := by
        rintro label rfl
        exact hinside label List.mem_cons_self
      obtain ⟨hblocks, hprocedure⟩ :=
        ih hrest (Command.procedure?_of_run hrun hopen hne hexit) hlater
      refine ⟨?_, ?_⟩
      · rw [handOut, Action.bind_of_ok hrun, hblocks, frameBlocks]
        all_goals exact hne
      · rw [hprocedure, frameWords]
        exact hne

/-- Ranges that follow each other are between where the first one starts and where the last one
ends. -/
theorem mem_frameBlocks {start : Nat} {commands : List Command} {block : Machine.Block}
    (h : block ∈ frameBlocks start commands) :
    start ≤ block.start ∧ block.stop ≤ start + frameWords commands := by
  fun_induction frameBlocks start commands with
  | case1 => cases h
  | case2 start words commands ih =>
    rw [frameWords]
    rcases List.mem_cons.mp h with rfl | hlater
    · simp only [Machine.Block.stop]
      omega
    · have := ih hlater
      omega
  | case3 start command commands hne ih =>
    rw [frameWords]
    · exact ih h
    · exact hne

/-- Ranges that follow each other share no word: all later ones are behind the end of the first. -/
theorem pairwise_frameBlocks (start : Nat) (commands : List Command) :
    (frameBlocks start commands).Pairwise Machine.Block.Apart := by
  fun_induction frameBlocks start commands with
  | case1 => exact .nil
  | case2 start words commands ih =>
    exact .cons (fun block hblock => Or.inl (mem_frameBlocks hblock).1) ih
  | case3 start command commands hne ih => exact ih

end Assembler

namespace Machine

/-! ### Opening a frame -/

/-- Words are popped into the first slots of a frame in the order in which they were pushed.  By
induction on their number, from the last slot to the first. -/
theorem popInto_eq {n : Nat} (s : State) (below : List Word) {args front : List Word}
    (back : List Word) (hargs : args.length = n) (hfront : front.length = n) :
    popInto n (front ++ back).toArray { s with stack := (below ++ args).toArray }
      = .ok (args ++ back).toArray { s with stack := below.toArray } := by
  induction n generalizing args front back with
  | zero =>
    obtain rfl := List.length_eq_zero_iff.mp hargs
    obtain rfl := List.length_eq_zero_iff.mp hfront
    rw [List.append_nil]
    rfl
  | succ n ih =>
    -- the topmost word goes into the last slot
    obtain ⟨args, v, rfl⟩ := List.eq_nil_or_concat args |>.resolve_left (by rintro rfl; cases hargs)
    obtain ⟨front, w, rfl⟩ :=
      List.eq_nil_or_concat front |>.resolve_left (by rintro rfl; cases hfront)
    rw [List.length_concat, Nat.succ_inj] at hargs hfront
    have hpop : pop { s with stack := (below ++ args.concat v).toArray }
        = .ok v { s with stack := (below ++ args).toArray } := by
      simp [pop]
    have hset : (front.concat w ++ back).toArray.setIfInBounds n v
        = (front ++ v :: back).toArray := by
      rw [List.setIfInBounds_toArray, List.concat_eq_append, List.append_assoc,
        ← hfront, List.set_append_right _ _ (Nat.le_refl _), Nat.sub_self]
      rfl
    rw [popInto, Action.bind_of_ok hpop, hset, ih (v :: back) hargs hfront]
    simp

/-- The parameters and the other words of a frame: the arguments are popped, and the rest is 0. -/
theorem enter_eq (s : State) (below args : List Word) (words : Nat) :
    enter args.length (args.length + words) { s with stack := (below ++ args).toArray }
      = .ok () { s with
          stack := below.toArray
          frames := s.frames.push (args ++ List.replicate words 0).toArray } := by
  have hframe : Array.replicate (max (args.length + words) args.length) (0 : Word)
      = (List.replicate args.length (0 : Word) ++ List.replicate words (0 : Word)).toArray := by
    rw [Nat.max_eq_left (Nat.le_add_right _ _), List.replicate_append_replicate,
      List.toArray_replicate]
  have hlength : (List.replicate args.length (0 : Word)).length = args.length :=
    List.length_replicate
  have hpop := popInto_eq s below (List.replicate words 0) rfl hlength
  unfold enter
  rw [hframe]
  exact Action.bind_of_ok hpop

/-- `enter` moves the arguments into the first words of a new frame, in the order in which they were
pushed, and the other words are 0. -/
theorem step_enter {code : Array UInt8} {limits : Limits} {params size : UInt8} {s : State}
    (hcode : CodeAt code s.pc (Instruction.enter params size).bytes)
    (hallow : limits.Allow (s.steps + 1) s.stack.size) {below args : List Word} {words : Nat}
    (hstack : s.stack.toList = below ++ args) (hparams : params.toNat = args.length)
    (hsize : size.toNat = args.length + words) :
    step limits code s = .ok true { s with
      pc := s.pc + 3
      steps := s.steps + 1
      stack := below.toArray
      frames := s.frames.push (args ++ List.replicate words 0).toArray } := by
  refine step_of_fetch (fetch_of_codeAt hcode (by simp)) ?_ (checkLimits_of_allow hallow)
  have hfetched : s.fetched (.enter params size)
      = { s.fetched (.enter params size) with stack := (below ++ args).toArray } := by
    rw [← hstack]
    rfl
  rw [execute, hfetched, hparams, hsize, Action.bind_of_ok (enter_eq _ below args words)]
  rfl

/-! ### Frames that stay open -/

variable {code : Array UInt8} {limits : Limits}

/-- The size of a frame, if it is open. -/
def State.frameSize? (s : State) (k : Nat) : Option Nat := s.frames[k]?.map Array.size

/-- A change leaves the sizes of all frames alone that are open before and after it.  Frames are
opened and closed at the top, and a word is set inside of one. -/
theorem Commit.frameSize?_eq {i : Instruction} {s t : State} (h : Commit limits i s t) {k : Nat}
    (hs : k < s.frames.size) (ht : k < t.frames.size) : t.frameSize? k = s.frameSize? k := by
  unfold State.frameSize?
  cases h with
  | setLocal frame slot v hframe hslot =>
    -- a frame that is changed keeps its size
    rw [Array.back?_eq_getElem?] at hframe
    rw [Array.getElem?_push, Array.size_pop, Array.getElem?_pop]
    split
    · rename_i hk
      rw [hk, hframe, Option.map_some, Option.map_some, Array.size_setIfInBounds]
    · rw [if_pos (by omega)]
  | enter params size frame hi =>
    rw [Array.getElem?_push_lt hs, Array.getElem?_eq_getElem hs]
  | exit frame hi hframe =>
    rw [Array.size_pop] at ht
    rw [Array.getElem?_pop, if_pos ht]
  | rest | push | setStatic | setHeap | newObject | newArray | goto | call | ret | write => rfl

theorem frameSize?_of_step {s t : State} (h : step limits code s = .ok true t) {k : Nat}
    (hs : k < s.frames.size) (ht : k < t.frames.size) : t.frameSize? k = s.frameSize? k := by
  obtain ⟨i, -, -, u, hpopped, hcommit⟩ := change_of_step h
  have hframes : u.frames = s.frames := hpopped.frames
  rw [hcommit.frameSize?_eq (hframes ▸ hs) ht, State.frameSize?, hframes, State.frameSize?]

/-- Steps during which the frame at a depth stays open.  Other frames may be opened above it and
closed again; a frame that is opened at the same depth later is another one. -/
def KeepsFrame (limits : Limits) (code : Array UInt8) (k : Nat) : State → State → Prop :=
  Relation.ReflTransGen fun s t => step limits code s = .ok true t ∧ k < t.frames.size

/-- An open frame keeps its size, by induction on the steps. -/
theorem KeepsFrame.frameSize?_eq {k : Nat} {s t : State} (h : KeepsFrame limits code k s t)
    (hs : k < s.frames.size) : k < t.frames.size ∧ t.frameSize? k = s.frameSize? k := by
  induction h with
  | refl => exact ⟨hs, rfl⟩
  | tail _ hstep ih => exact ⟨hstep.2, (frameSize?_of_step hstep.1 ih.1 hstep.2).trans ih.2⟩

end Machine

/-! ### Access to a frame -/

/-- The word of the innermost frame that an instruction loads or stores.  No other instruction can
access a frame outside of its words. -/
def Instruction.slot? : Instruction → Option Nat
  | load slot | store slot => some slot.toNat
  | loadShort slot | storeShort slot => some slot.val
  | _ => none

namespace Machine

/-- Loading and storing a word that the innermost frame has is no access outside of it. -/
theorem execute_ne_frameAccess {i : Instruction} {o : Nat} {s t : State}
    (hslot : i.slot? = some o) (hword : (s.word? .stack o).isSome = true) (slot size : Nat) :
    execute limits i s ≠ .error (.fault (.frameAccess slot size)) t := by
  obtain ⟨w, hw⟩ := Option.isSome_iff_exists.mp hword
  -- an instruction that loads the word cannot fail, one that stores it can only lack an operand
  have hload : (do push (← getLocal o); return true : Exec Bool) s
      ≠ .error (.fault (.frameAccess slot size)) t := by
    rw [Action.bind_of_ok (getLocal_of_word? hw)]
    intro h
    cases h
  have hstore : (do let v ← pop; setLocal o v; return true : Exec Bool) s
      ≠ .error (.fault (.frameAccess slot size)) t := by
    cases hback : s.stack.back? with
    | none =>
      have hpop : pop s = .error (.fault .stackUnderflow) s := by rw [pop, hback]
      rw [Action.bind_eq_error.mpr (Or.inl hpop)]
      simp
    | some v =>
      have hpop : pop s = .ok v { s with stack := s.stack.pop } := by rw [pop, hback]
      have hset : setLocal o v { s with stack := s.stack.pop }
          = .ok () (State.setWord { s with stack := s.stack.pop } .stack o v) :=
        setLocal_of_word? (by exact hword) v
      rw [Action.bind_of_ok hpop, Action.bind_of_ok hset]
      intro h
      cases h
  cases i with
  | load | loadShort =>
    obtain rfl := Option.some.inj hslot
    exact hload
  | store | storeShort =>
    obtain rfl := Option.some.inj hslot
    exact hstore
  | _ => cases hslot

theorem step_ne_frameAccess {i : Instruction} {o : Nat} {s t : State}
    (hfetch : fetch code s.pc = .ok i) (hslot : i.slot? = some o)
    (hword : (s.word? .stack o).isSome = true) (slot size : Nat) :
    step limits code s ≠ .error (.fault (.frameAccess slot size)) t := by
  intro hstep
  rcases checkLimits_cases limits s with hcheck | ⟨cause, u, hcheck, hcause⟩
  · rw [step_of_fetch hfetch rfl hcheck] at hstep
    exact execute_ne_frameAccess (s := s.fetched i) hslot hword slot size hstep
  · have hstop : step limits code s = .error (.fault cause) u :=
      Action.bind_eq_error.mpr (Or.inl hcheck)
    rw [hstop] at hstep
    cases hstep
    cases hcause

/-- A frame that stayed open and is on top again has the words it had when it was opened. -/
theorem KeepsFrame.isSome_word? {k o : Nat} {s t : State} {frame : Array Word}
    (h : KeepsFrame limits code k s t) (hframe : s.frames[k]? = some frame)
    (htop : t.frames.size = k + 1) (ho : o < frame.size) : (t.word? .stack o).isSome = true := by
  obtain ⟨-, hsize⟩ := h.frameSize?_eq (Array.getElem?_eq_some_iff.mp hframe).1
  rw [State.frameSize?, State.frameSize?, hframe, Option.map_some] at hsize
  obtain ⟨frame', hframe', hsize⟩ := Option.map_eq_some_iff.mp hsize
  have hback : t.frames.back? = some frame' := by
    rw [Array.back?_eq_getElem?, htop]
    exact hframe'
  rw [State.word?, hback, Option.bind_some, Array.getElem?_eq_getElem (hsize ▸ ho)]
  rfl

end Machine

/-! ### Agreement -/

namespace Assembler

open Machine

/-- The `enter` at the start of a procedure has the number of its parameters and the size that its
frame has in the end, which fits a byte. -/
theorem codeAt_enter {between : List Command} {label exitLabel : String} {params : Nat}
    {isMain : Bool} {a a₁ a₂ b : Assembler} (henter : enter label params isMain a = .ok () a₁)
    (hbetween : session between a₁ = .ok () a₂) (hinside : ∀ l, .exit l ∉ between)
    (hexit : exit exitLabel a₂ = .ok () b) :
    params + frameWords between ≤ 255 ∧
      ∀ {image : Image} {table : String → Option Nat}, b.RealizedBy image table →
        table label = some a.code.size ∧
        CodeAt image.code.toArray a.code.size (Instruction.enter (UInt8.ofNat params)
          (UInt8.ofNat (params + frameWords between))).bytes := by
  obtain ⟨-, -, -, rfl⟩ := enter_eq_ok henter
  obtain ⟨-, hopen⟩ := handOut_eq hbetween rfl hinside
  refine ⟨?_, fun {image table} h => ?_⟩
  · obtain ⟨p, code, hp, hsize, -⟩ := exit_eq_ok hexit
    obtain rfl := Option.some.inj (hopen.symm.trans hp)
    exact hsize
  · have hsize := frame_of_realizedBy hopen hexit h
    have hopened := ((h.of_effects ((Command.exit exitLabel).regular hexit)).of_effects
      (effects_session hbetween))
    exact ⟨hopened.labels label _ (address?_withLabel_self a label), hopened.codeAt_opened hsize⟩

/-- **The assembler and the machine agree on frames.**  The words that a procedure sets aside follow
its parameters, one range after the other, and share none.  In a finished image the `enter` at its
label has the numbers of its parameters and of all words of the frame.  It moves the arguments into
the first words of a new frame, in the order in which they were pushed, and the others are 0.  As
long as this frame is open, no access to its words while it is on top is outside of it. -/
theorem frame_layout {before between after : List Command} {label exitLabel : String}
    {params : Nat} {isMain : Bool} {a : Assembler}
    (hsession : session (before ++ .enter label params isMain ::
      (between ++ .exit exitLabel :: after)) .empty = .ok () a)
    (hinside : ∀ l, .exit l ∉ between) :
    (∃ a₁ a₂, session (before ++ [.enter label params isMain]) .empty = .ok () a₁ ∧
      handOut between a₁ = .ok (frameBlocks params between) a₂ ∧
      session between a₁ = .ok () a₂) ∧
    (frameBlocks params between).Pairwise Block.Apart ∧
    (∀ block ∈ frameBlocks params between,
      params ≤ block.start ∧ block.stop ≤ params + frameWords between) ∧
    params + frameWords between ≤ 255 ∧
    ∀ b image, finish a = .ok (.ok image) b → ∃ n, b.labels.address? label = some n ∧
      CodeAt image.code.toArray n [Opcode.enter.byte, UInt8.ofNat params,
        UInt8.ofNat (params + frameWords between)] ∧
      ∀ (limits : Limits) (s : State) (below args : List Word), s.pc = n →
        s.stack.toList = below ++ args → args.length = params →
        limits.Allow (s.steps + 1) s.stack.size →
        ∃ s', step limits image.code.toArray s = .ok true s' ∧
          s' = { s with
            pc := n + 3
            steps := s.steps + 1
            stack := below.toArray
            frames := s.frames.push
              (args ++ List.replicate (frameWords between) (0 : Word)).toArray } ∧
          ∀ t i o, KeepsFrame limits image.code.toArray s.frames.size s' t →
            t.frames.size = s.frames.size + 1 → fetch image.code.toArray t.pc = .ok i →
            i.slot? = some o → o < params + frameWords between →
            ∀ slot size u, step limits image.code.toArray t
              ≠ .error (.fault (.frameAccess slot size)) u := by
  obtain ⟨a₀, hbefore, hrest⟩ := session_append.mp hsession
  obtain ⟨a₁, henter, hrest⟩ := session_cons.mp hrest
  obtain ⟨a₂, hbetween, hrest⟩ := session_append.mp hrest
  obtain ⟨a₃, hexit, hafter⟩ := session_cons.mp hrest
  obtain ⟨hfits, hcode⟩ := codeAt_enter henter hbetween hinside hexit
  refine ⟨⟨a₁, a₂, ?_, ?_, hbetween⟩, pairwise_frameBlocks params between,
    fun block hblock => mem_frameBlocks hblock, hfits, fun b image hfinish => ?_⟩
  · exact session_append.mpr ⟨a₀, hbefore, session_cons.mpr ⟨a₁, henter, rfl⟩⟩
  · obtain ⟨-, -, -, rfl⟩ := enter_eq_ok henter
    exact (handOut_eq hbetween rfl hinside).1
  obtain ⟨hlabel, hbytes⟩ :=
    hcode ((realizedBy_of_finish hfinish).of_effects (effects_session hafter))
  refine ⟨a₀.code.size, hlabel, hbytes, ?_⟩
  rintro limits s below args hpc hstack rfl hallow
  -- the two numbers fit a byte, so that the machine reads them as they were meant
  have hbyte : ∀ n, n ≤ 255 → (UInt8.ofNat n).toNat = n := fun n hn => by
    rw [UInt8.toNat_ofNat', Nat.mod_eq_of_lt (Nat.lt_succ_of_le hn)]
  have hstep := step_enter (hpc ▸ hbytes) hallow hstack
    (hbyte _ (Nat.le_trans (Nat.le_add_right _ _) hfits)) (hbyte _ hfits)
  rw [hpc] at hstep
  refine ⟨_, hstep, rfl, ?_⟩
  intro t i o hkeeps htop hfetch hslot ho slot size u
  refine step_ne_frameAccess hfetch hslot (hkeeps.isSome_word? Array.getElem?_push_size htop ?_)
    slot size
  rw [List.size_toArray, List.length_append, List.length_replicate]
  exact ho

/-- A procedure with two parameters that sets three words aside and later another one. -/
theorem frame_layout_two_parameters : ∃ (a a₁ a₂ b : Assembler) (image : Image),
    session [.enter "f" 2 false, .allocLocal 3, .jump "f_end", .allocLocal 1, .exit "f_end",
      .enter "main" 0 true, .exit "main_end"] .empty = .ok () a ∧
    handOut [.allocLocal 3, .jump "f_end", .allocLocal 1] a₁ = .ok [⟨2, 3⟩, ⟨5, 1⟩] a₂ ∧
    finish a = .ok (.ok image) b ∧ image.code = [48, 2, 6, 39, 0, 6, 49, 47, 48, 0, 0, 49, 47] ∧
    ∃ n s', b.labels.address? "f" = some n ∧
      step .standard image.code.toArray { State.load image [] with pc := n, stack := #[9, 4, 7] }
        = .ok true s' ∧
      s'.stack = #[9] ∧ s'.frames = #[#[4, 7, 0, 0, 0, 0]] := by
  have hsession : session ([] ++ .enter "f" 2 false :: ([.allocLocal 3, .jump "f_end",
      .allocLocal 1] ++ .exit "f_end" :: [.enter "main" 0 true, .exit "main_end"])) .empty
      = .ok () {
        code := ⟨#[.known 48, .known 2, .known 6, .known 39, .hole, .hole, .known 49, .known 47,
          .known 48, .known 0, .known 0, .known 49, .known 47]⟩
        statics := .empty
        labels := ⟨[("main_end", 11), ("main", 8), ("f_end", 6), ("f", 0)], [("f_end", 4)]⟩
        procedure? := none
        main? := some "main" } := by
    decide +kernel
  have hfinish : finish {
        code := ⟨#[.known 48, .known 2, .known 6, .known 39, .hole, .hole, .known 49, .known 47,
          .known 48, .known 0, .known 0, .known 49, .known 47]⟩
        statics := .empty
        labels := ⟨[("main_end", 11), ("main", 8), ("f_end", 6), ("f", 0)], [("f_end", 4)]⟩
        procedure? := none
        main? := some "main" }
      = .ok (.ok (.ofSegments [48, 2, 6, 39, 0, 6, 49, 47, 48, 0, 0, 49, 47] [] 8)) {
        code := ⟨#[.known 48, .known 2, .known 6, .known 39, .known 0, .known 6, .known 49,
          .known 47, .known 48, .known 0, .known 0, .known 49, .known 47]⟩
        statics := .empty
        labels := ⟨[("main_end", 11), ("main", 8), ("f_end", 6), ("f", 0)], []⟩
        procedure? := none
        main? := some "main" } := by
    decide +kernel
  obtain ⟨⟨a₁, a₂, -, hblocks, -⟩, -, -, -, hmachine⟩ := frame_layout hsession (by simp)
  obtain ⟨n, hlabel, -, hframe⟩ := hmachine _ _ hfinish
  have hallow : Limits.standard.Allow 1 3 := ⟨fun m hm => (by cases hm), by decide⟩
  obtain ⟨s', hstep, rfl, -⟩ := hframe .standard
    { State.load (.ofSegments [48, 2, 6, 39, 0, 6, 49, 47, 48, 0, 0, 49, 47] [] 8) [] with
      pc := n, stack := #[9, 4, 7] } [9] [4, 7] rfl rfl rfl hallow
  exact ⟨_, a₁, a₂, _, _, hsession, hblocks, hfinish, rfl, n, _, hlabel, hstep, rfl, rfl⟩

end Assembler
end MJ
