import MJ.Proofs.Statement.Simulation

/-!
# Places of variables

The variables of a program get words of their own: no two of them share a word, the words of the
static segment come before all texts, and all of them are zero when the program begins.

## Main definitions

* `Assembler.HasWord` — a word of a program under construction is set aside.
* `Variable.placedAt` — the declaration of a variable with a place.
* `Places` — words are set aside for variables, and for nothing else.

## Main results

* `Program.places_of_allocAll` — variables get words that were not set aside before.
* `Places.separates` — variables with such places do not get in each other's way.
-/

namespace MJ

open Assembler Compiler

/-! ### Words that are set aside -/

/-- A word of the static segment or of the open frame is set aside.  Outside of procedures no word
of a frame is. -/
def Assembler.HasWord (a : Assembler) (isGlobal : Bool) (n : Nat) : Prop :=
  if isGlobal then n < a.statics.words else ∃ p, a.procedure? = some p ∧ n < p.size

theorem Decl.isGlobal_of_region {d e : Decl} (h : d.region = e.region) :
    d.isGlobal = e.isGlobal := by
  rw [Decl.region, Decl.region] at h
  cases hd : d.isGlobal <;> cases he : e.isGlobal <;> simp [hd, he] at h ⊢

/-- The declaration of a variable that has the word `n`. -/
def Variable.placedAt (v : Variable) (n : Nat) : Decl :=
  { v.decl with offset? := some (Int32.ofNat n) }

theorem Variable.assignable_placedAt (v : Variable) (n : Nat) : (v.placedAt n).Assignable v.type :=
  ⟨⟨⟨rfl, rfl⟩, rfl⟩, rfl, rfl⟩

theorem Variable.toInt_offset_placedAt (v : Variable) {n : Nat} (hn : n < 2147483648) :
    (v.placedAt n).offset.toInt = n :=
  Int32.toInt_ofNat_of_lt hn

theorem Variable.slot_placedAt (v : Variable) {n : Nat} (hn : n < 2147483648) :
    (v.placedAt n).slot = n := by
  rw [Decl.slot, v.toInt_offset_placedAt hn, Int.toNat_natCast]

/-- The declarations of variables that have words. -/
def Variable.placedAll (ps : List (Variable × Nat)) : List Decl :=
  ps.map fun p => p.1.placedAt p.2

/-- The word of a variable. -/
def Variable.word (p : Variable × Nat) : Bool × Nat := (p.1.isGlobal, p.2)

theorem Variable.mem_word_singleton {v : Variable} {k n : Nat} {isGlobal : Bool} :
    (isGlobal, n) ∈ [(v, k)].map Variable.word ↔ isGlobal = v.isGlobal ∧ n = k := by
  rw [List.map_singleton, List.mem_singleton, Variable.word, Prod.mk.injEq]

/-- From one program under construction to the other, just the words of some variables are set
aside; static ones are zero.  With `fresh` and `nodup`, no two variables can share a word, however
many are placed one after the other. -/
structure Places (ps : List (Variable × Nat)) (a b : Assembler) : Prop where
  effects : Effects a b
  hasWord : ∀ isGlobal n,
    b.HasWord isGlobal n ↔ a.HasWord isGlobal n ∨ (isGlobal, n) ∈ ps.map Variable.word
  fresh : ∀ p ∈ ps, ¬ a.HasWord p.1.isGlobal p.2
  nodup : (ps.map Variable.word).Nodup
  zero : (∀ byte ∈ a.statics.bytes, byte = 0) → ∀ byte ∈ b.statics.bytes, byte = 0
  settled : Target.Settled a.labels.Lacks b.labels.Lacks

namespace Places

variable {a b c : Assembler} {ps qs : List (Variable × Nat)}

theorem refl (a : Assembler) : Places [] a a where
  effects := .refl
  hasWord _ _ := by simp
  fresh _ hp := nomatch hp
  nodup := .nil
  zero h := h
  settled _ hl := hl

theorem trans (h : Places ps a b) (h' : Places qs b c) : Places (ps ++ qs) a c where
  effects := h.effects.trans h'.effects
  hasWord isGlobal n := by rw [h'.hasWord, h.hasWord, List.map_append, List.mem_append, or_assoc]
  fresh p hp := by
    rcases List.mem_append.mp hp with hp | hp
    · exact h.fresh p hp
    · exact fun hword => h'.fresh p hp ((h.hasWord _ _).mpr (Or.inl hword))
  nodup := by
    -- the later words were not set aside when the earlier ones were
    rw [List.map_append, List.nodup_append]
    refine ⟨h.nodup, h'.nodup, fun w hw w' hw' hsame => ?_⟩
    subst hsame
    obtain ⟨p, hp, rfl⟩ := List.mem_map.mp hw'
    exact h'.fresh p hp ((h.hasWord _ _).mpr (Or.inr hw))
  zero hzero := h'.zero (h.zero hzero)
  settled l hl := h.settled l (h'.settled l hl)

/-- A static word is the first after the static data there is. -/
theorem static {v : Variable} (hv : v.isGlobal = true) {n : Nat}
    (h : allocStatic 1 a = .ok n b) : Places [(v, n)] a b := by
  have hregular := (Command.allocStatic 1).regular_answering rfl h
  obtain ⟨rfl, rfl⟩ := allocStatic_eq_ok h
  have hwords : (a.statics.alloc 1).words = a.statics.words + 1 := by
    simp only [Statics.words, Statics.alloc, Array.size_append, Array.size_replicate, wordSize]
    omega
  refine ⟨hregular, fun isGlobal n => ?_, fun p hp => ?_, List.pairwise_singleton _ _, ?_,
    fun _ hl => hl⟩
  · -- the words of the frame are another region, and nothing happens to them
    rw [Variable.mem_word_singleton, hv]
    cases isGlobal with
    | true =>
      simp only [HasWord, if_true, hwords, true_and]
      omega
    | false => simp only [HasWord, Bool.false_eq_true, if_false, false_and, or_false]
  · obtain rfl := List.mem_singleton.mp hp
    simp [HasWord, hv]
  · intro hzero byte hbyte
    rcases Array.mem_append.mp hbyte with hbyte | hbyte
    · exact hzero byte hbyte
    · exact Array.eq_of_mem_replicate hbyte

/-- A word of the open frame is the first after those that were set aside there. -/
theorem frame {v : Variable} (hv : v.isGlobal = false) {n : Nat}
    (h : allocLocal 1 a = .ok n b) : Places [(v, n)] a b := by
  have hregular := (Command.allocLocal 1).regular_answering rfl h
  obtain ⟨p, hopen, rfl, rfl⟩ := allocLocal_eq_ok h
  refine ⟨hregular, fun isGlobal n => ?_, fun q hq => ?_, List.pairwise_singleton _ _,
    fun h => h, fun _ hl => hl⟩
  · rw [Variable.mem_word_singleton, hv]
    cases isGlobal with
    | true => simp only [HasWord, if_true, Bool.true_eq_false, false_and, or_false]
    | false =>
      simp only [HasWord, Bool.false_eq_true, if_false, hopen, Option.some.injEq,
        exists_eq_left', true_and]
      omega
  · obtain rfl := List.mem_singleton.mp hq
    simp [HasWord, hopen, hv]

/-- The start of a procedure without parameters sets no word aside. -/
theorem enter {label : String} {isMain : Bool} (h : Assembler.enter label 0 isMain a = .ok () b) :
    Places [] a b := by
  have hregular := (Command.enter label 0 isMain).regular h
  obtain ⟨hclosed, -, hnew, rfl⟩ := enter_eq_ok h
  refine ⟨hregular, fun isGlobal n => ?_, (fun p hp => nomatch hp), .nil, fun h => h, ?_⟩
  · cases isGlobal with
    | true => simp [HasWord, opened, withLabel]
    | false => simp [HasWord, opened, withLabel, hclosed, Procedure.ofParams]
  · exact fun l hl => (Target.defines_withLabel a label l hl).1

end Places

/-- Two programs have the same code, and the byte for the size of the open frame is the same.
Placing variables writes no code, so that the procedure still begins where it began. -/
def SameCode (a b : Assembler) : Prop :=
  b.code = a.code ∧ b.procedure?.map Procedure.sizeSlot = a.procedure?.map Procedure.sizeSlot

namespace Program

theorem places_of_allocVariable {v : Variable} {d : Decl} {c c' : Compiler}
    (h : allocVariable v.decl c = .ok d c') :
    ∃ n a, d = v.placedAt n ∧ c' = c.withAssembler a ∧ Places [(v, n)] c.assembler a ∧
      SameCode c.assembler a := by
  have hrun : (if v.isGlobal then
      (do return v.placedAt (← (liftM (allocStatic 1) : Compile Nat)))
      else do return v.placedAt (← (liftM (allocLocal 1) : Compile Nat))) c = .ok d c' := h
  cases hv : v.isGlobal with
  | true =>
    rw [hv, if_pos rfl] at hrun
    obtain ⟨n, c₁, halloc, hreturn⟩ := Action.bind_eq_ok.mp hrun
    obtain ⟨a, hstatic, rfl⟩ := assemble_eq_ok.mp halloc
    obtain ⟨rfl, rfl⟩ := EStateM.Result.ok.inj hreturn
    obtain ⟨-, rfl⟩ := allocStatic_eq_ok hstatic
    exact ⟨n, _, rfl, rfl, .static hv hstatic, rfl, rfl⟩
  | false =>
    rw [hv, if_neg Bool.false_ne_true] at hrun
    obtain ⟨n, c₁, halloc, hreturn⟩ := Action.bind_eq_ok.mp hrun
    obtain ⟨a, hlocal, rfl⟩ := assemble_eq_ok.mp halloc
    obtain ⟨rfl, rfl⟩ := EStateM.Result.ok.inj hreturn
    obtain ⟨p, hopen, -, rfl⟩ := allocLocal_eq_ok hlocal
    exact ⟨n, _, rfl, rfl, .frame hv hlocal, rfl, by rw [hopen]; rfl⟩

/-- Variables get words that were not set aside before.  By induction on the variables, with the
places so far composed with those of the others. -/
theorem places_of_allocAll {vs : List Variable} {ds : List Decl} {c c' : Compiler}
    (h : allocAll vs c = .ok ds c') :
    ∃ (ps : List (Variable × Nat)) (a : Assembler), ps.map (·.1) = vs ∧
      ds = Variable.placedAll ps ∧ c' = c.withAssembler a ∧
      Places ps c.assembler a ∧ SameCode c.assembler a := by
  induction vs generalizing ds c with
  | nil =>
    obtain ⟨rfl, rfl⟩ := EStateM.Result.ok.inj h
    exact ⟨[], c.assembler, rfl, rfl, rfl, .refl _, rfl, rfl⟩
  | cons v vs ih =>
    obtain ⟨d, c₁, hfirst, hrest⟩ := Action.bind_eq_ok.mp h
    obtain ⟨ds, c₂, hothers, hreturn⟩ := Action.bind_eq_ok.mp hrest
    obtain ⟨rfl, rfl⟩ := EStateM.Result.ok.inj hreturn
    obtain ⟨n, a, rfl, rfl, hplaces, hcode, hslot⟩ := places_of_allocVariable hfirst
    obtain ⟨ps, b, rfl, rfl, rfl, hplaces', hcode', hslot'⟩ := ih hothers
    exact ⟨(v, n) :: ps, b, rfl, rfl, rfl, hplaces.trans hplaces', hcode'.trans hcode,
      hslot'.trans hslot⟩

end Program

/-! ### The variables of a program in memory -/

/-- A use of a variable stands for its declaration. -/
theorem Ref.decl_placedAll {vars : List Variable} {ps : List (Variable × Nat)}
    (hps : ps.map (·.1) = vars) {t : Scalar} (x : Ref vars t) :
    ∃ p, ps[x.index.val]? = some p ∧ p.1 = vars.get x.index ∧ p.1.type = t ∧
      Ref.decl (Variable.placedAll ps) t x = p.1.placedAt p.2 := by
  subst hps
  have hlt : x.index.val < ps.length := Nat.lt_of_lt_of_eq x.index.isLt (List.length_map _)
  have hvariable : ps[x.index.val].1 = (ps.map (·.1)).get x.index := by
    rw [List.get_eq_getElem, List.getElem_map]
  refine ⟨ps[x.index.val], List.getElem?_eq_getElem hlt, hvariable, ?_, ?_⟩
  · rw [hvariable]
    exact x.type_eq
  · rw [Ref.decl, Variable.placedAll, List.getD_eq_getElem?_getD, List.getElem?_map,
      List.getElem?_eq_getElem hlt]
    rfl

theorem Ref.assignable {vars : List Variable} {ps : List (Variable × Nat)}
    (hps : ps.map (·.1) = vars) (t : Scalar) (x : Ref vars t) :
    (Ref.decl (Variable.placedAll ps) t x).Assignable t := by
  obtain ⟨p, -, -, rfl, hdecl⟩ := x.decl_placedAll hps
  rw [hdecl]
  exact p.1.assignable_placedAt p.2

/-- Uses of two variables stand at two places of the list. -/
theorem Ref.index_ne {vars : List Variable} {t u : Scalar} {x : Ref vars t} {y : Ref vars u}
    (h : (⟨u, y⟩ : Sigma (Ref vars)) ≠ ⟨t, x⟩) : y.index.val ≠ x.index.val := by
  intro hsame
  apply h
  obtain ⟨i, hi⟩ := x
  obtain ⟨j, hj⟩ := y
  obtain rfl : j = i := Fin.ext hsame
  obtain rfl := hj.symm.trans hi
  rfl

namespace Places

variable {vars : List Variable} {ps : List (Variable × Nat)} {b : Assembler} {g : Target}

/-- All words are set aside in the end. -/
theorem hasWord_of_mem (h : Places ps .empty b) {p : Variable × Nat} (hp : p ∈ ps) :
    b.HasWord p.1.isGlobal p.2 :=
  (h.hasWord _ _).mpr (Or.inr (List.mem_map_of_mem hp))

/-- The number of a word that is set aside fits a word, if there is an image: its data is small
enough, and the size of a frame is a byte. -/
theorem lt_of_hasWord (hrealized : b.RealizedBy g.image g.table) {isGlobal : Bool} {n : Nat}
    (h : b.HasWord isGlobal n) : n < 2147483648 := by
  cases isGlobal with
  | true =>
    have hn : n < b.statics.bytes.size / wordSize := h
    have hle := hrealized.statics.length_le
    have hlt := g.data_lt
    rw [Array.length_toList] at hle
    rw [wordSize] at hn
    omega
  | false =>
    obtain ⟨p, hopen, hn⟩ := h
    obtain ⟨byte, -, hle⟩ := hrealized.frame p hopen
    have hlt := byte.toNat_lt
    omega

/-- Variables that have words of their own do not get in each other's way. -/
theorem separates (h : Places ps .empty b) (hps : ps.map (·.1) = vars)
    (hrealized : b.RealizedBy g.image g.table) (hlimit : g.limit = b.statics.words) :
    g.Separates (@Ref.decl vars (Variable.placedAll ps)) where
  placed t x := by
    obtain ⟨p, hp, -, -, hdecl⟩ := x.decl_placedAll hps
    have hn := lt_of_hasWord hrealized (h.hasWord_of_mem (List.mem_of_getElem? hp))
    refine ⟨(Ref.assignable hps t x).toDeclared, ?_⟩
    rw [hdecl, p.1.toInt_offset_placedAt hn]
    exact Int.natCast_nonneg _
  distinct {t u x y} hne hsame := by
    obtain ⟨p, hp, -, -, hdecl⟩ := x.decl_placedAll hps
    obtain ⟨q, hq, -, -, hdecl'⟩ := y.decl_placedAll hps
    have hn := lt_of_hasWord hrealized (h.hasWord_of_mem (List.mem_of_getElem? hp))
    have hn' := lt_of_hasWord hrealized (h.hasWord_of_mem (List.mem_of_getElem? hq))
    rw [hdecl, hdecl', p.1.slot_placedAt hn, q.1.slot_placedAt hn'] at hsame
    -- two variables in one place would be one word twice in the list of words
    obtain ⟨hregion, hslot⟩ := Prod.mk.inj hsame
    have hglobal : q.1.isGlobal = p.1.isGlobal := Decl.isGlobal_of_region hregion
    have hlt : y.index.val < (ps.map Variable.word).length := by
      rw [List.length_map]
      exact (List.getElem?_eq_some_iff.mp hq).1
    refine Ref.index_ne hne ((List.getElem?_inj hlt h.nodup).mp ?_)
    rw [List.getElem?_map, List.getElem?_map, hp, hq, Option.map_some, Option.map_some,
      Variable.word, Variable.word, hglobal, hslot]
  below t x hglobal := by
    obtain ⟨p, hp, -, -, hdecl⟩ := x.decl_placedAll hps
    have hword := h.hasWord_of_mem (List.mem_of_getElem? hp)
    have hn := lt_of_hasWord hrealized hword
    rw [hdecl] at hglobal ⊢
    rw [p.1.slot_placedAt hn, hlimit]
    have hvariable : p.1.isGlobal = true := hglobal
    rw [HasWord, if_pos hvariable] at hword
    exact hword

/-- The bytes of the static words are zero when the program is loaded. -/
theorem getElem?_data (h : Places ps .empty b) (hrealized : b.RealizedBy g.image g.table) {k : Nat}
    (hk : k < b.statics.bytes.size) : g.image.data[k]? = some 0 := by
  obtain ⟨rest, hdata⟩ := hrealized.statics
  have hzero := h.zero (fun byte hbyte => nomatch hbyte) _ (Array.getElem_mem hk)
  rw [← hdata, List.getElem?_append_left (by rwa [Array.length_toList]), Array.getElem?_toList,
    Array.getElem?_eq_getElem hk, hzero]

/-- A loaded program has its variables in memory, all of them zero.  The static ones are zero in the
image, and the frame is made of zeros. -/
theorem keeps (h : Places ps .empty b) (hps : ps.map (·.1) = vars)
    (hrealized : b.RealizedBy g.image g.table) {s : Machine.State} {size : Nat}
    (hstatics : s.statics = g.image.data.toArray)
    (hframe : s.frames.back? = some (Array.replicate size 0))
    (hsize : ∀ p, b.procedure? = some p → p.size ≤ size) :
    g.Keeps (@Ref.decl vars (Variable.placedAll ps)) Env.initial s where
  stores t x := by
    have hinitial : t.word (Env.initial t x) = 0 := by cases t <;> rfl
    obtain ⟨p, hp, -, -, hdecl⟩ := x.decl_placedAll hps
    have hword := h.hasWord_of_mem (List.mem_of_getElem? hp)
    have hn := lt_of_hasWord hrealized hword
    rw [hinitial, Machine.State.read?, hdecl, p.1.slot_placedAt hn, Decl.region]
    cases hglobal : p.1.isGlobal with
    | true =>
      -- the four bytes of the word are among those that were set aside
      have hregion : (p.1.placedAt p.2).isGlobal = true := hglobal
      have hlt : p.2 < b.statics.bytes.size / wordSize := by
        rw [hglobal] at hword
        exact hword
      rw [if_pos hregion, Machine.State.word?, hstatics]
      refine Machine.staticWord?_of_zero fun k hk => ?_
      rw [List.getElem?_toArray]
      refine h.getElem?_data hrealized ?_
      rw [wordSize] at hlt hk ⊢
      omega
    | false =>
      have hregion : ¬ (p.1.placedAt p.2).isGlobal = true := by
        rw [show (p.1.placedAt p.2).isGlobal = false from hglobal]
        exact Bool.false_ne_true
      rw [hglobal] at hword
      obtain ⟨q, hopen, hlt⟩ := hword
      rw [if_neg hregion, Machine.State.word?, hframe, Option.bind_some, Array.getElem?_replicate,
        if_pos (Nat.lt_of_lt_of_le hlt (hsize q hopen))]
  size_eq := by rw [hstatics, List.size_toArray]
  texts k _ := by rw [hstatics, List.getElem?_toArray]

end Places
end MJ
