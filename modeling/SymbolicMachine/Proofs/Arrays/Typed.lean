import Mathlib.Order.Basic
import SymbolicMachine.Proofs.Acts.Roots
import SymbolicMachine.Proofs.Terms.Evaluation
import SymbolicMachine.Proofs.Terms.Occurrences
/-!
# Typed states

The symbols that a path knows have different numbers, and every term in a state is well typed and
speaks of known symbols only.  So terms that look the same are the same, although symbols are told
apart by their number alone.  What is written into arrays is written at indices of type `int`.

A path gets on by steps, by stores into arrays and by operands that are put on the stack and taken
off.  Every state that it gets to is typed.
-/
namespace SymbolicMachine

open SymbolicMachine.Action

variable {ω τ : Type}

/-! ## Terms over known symbols -/

/-- A well-typed term in which all symbols are known. -/
structure Term.Over (known : Symbol → Prop) (t : Term) : Prop where
  wellTyped : t.WellTyped
  known : ∀ x ∈ t.occurrences, known x

/-- The term of a primitive is one over known symbols. -/
def Value.Over (known : Symbol → Prop) : Value → Prop
  | .primitive t => t.Over known
  | .reference _ => True

/-- The symbols that are known have different numbers, all of them below the next one. -/
structure Numbering (known : Symbol → Prop) (next : Nat) : Prop where
  distinct : ∀ {x y : Symbol}, known x → known y → x.id = y.id → x = y
  below : ∀ {x : Symbol}, known x → x.id < next

section Known

variable {known known' : Symbol → Prop} {a b : Term} {v w : Value} {m n : Nat}

theorem Term.Over.mono (h : a.Over known) (hle : known ≤ known') : a.Over known' :=
  ⟨h.wellTyped, fun x hx => hle x (h.known x hx)⟩

theorem Value.Over.mono (h : v.Over known) (hle : known ≤ known') : v.Over known' := by
  cases v with
  | primitive t => exact Term.Over.mono h hle
  | reference r => trivial

theorem Term.over_constant (c : Constant) : (Term.constant c).Over known := ⟨trivial, nofun⟩

theorem Term.over_symbol {x : Symbol} (hx : known x) : (Term.symbol x).Over known :=
  ⟨trivial, fun y hy => by
    cases List.mem_singleton.1 hy
    exact hx⟩

theorem Value.over_of_isPlain (h : v.IsPlain) : v.Over known := by
  cases h with
  | constant c => exact Term.over_constant c
  | null => trivial

theorem Term.over_application {type : PrimType} {name : String} {args : List Term}
    (h : ∀ t ∈ args, t.Over known) : (Term.application type name args).Over known where
  wellTyped := Term.allWellTyped_iff.2 fun t ht => (h t ht).wellTyped
  known x hx := by
    obtain ⟨t, ht, hx⟩ := Term.mem_occurrencesAll.1 hx
    exact (h t ht).known x hx

theorem Term.Over.convert (h : a.Over known) {type : PrimType} (hb : a.convert type = .ok b) :
    b.Over known :=
  ⟨(Term.convert_spec h.wellTyped hb).1, fun x hx => h.known x (Term.occurrences_convert hb hx)⟩

theorem Value.Over.widen (h : v.Over known) (hw : v.widen = .ok w) : w.Over known := by
  cases v with
  | reference r =>
    cases hw
    trivial
  | primitive t =>
    obtain ⟨u, hu, rfl⟩ := map_eq_ok.1 hw
    exact Term.Over.convert h hu

theorem Numbering.mono (h : Numbering known m) (hmn : m ≤ n) : Numbering known n :=
  ⟨h.distinct, fun hx => Nat.lt_of_lt_of_le (h.below hx) hmn⟩

theorem Numbering.restrict (h : Numbering known' n) (hle : known ≤ known') : Numbering known n :=
  ⟨fun hx hy => h.distinct (hle _ hx) (hle _ hy), fun hx => h.below (hle _ hx)⟩

/-- A new symbol takes the next number. -/
theorem Numbering.extend (h : Numbering known n) {x : Symbol} (hx : x.id = n) :
    Numbering (fun y => known y ∨ y = x) (n + 1) where
  distinct := by
    rintro y z (hy | rfl) (hz | rfl) hyz
    · exact h.distinct hy hz hyz
    · exact absurd (h.below hy) (by omega)
    · exact absurd (h.below hz) (by omega)
    · rfl
  below := by
    rintro y (hy | rfl)
    · exact Nat.lt_succ_of_lt (h.below hy)
    · omega

theorem Numbering.stands (h : Numbering known n) {descriptor : String} {origin : Origin}
    (hv : Stands descriptor origin n v) :
    ∃ known', known ≤ known' ∧ Numbering known' (n + 1) ∧ v.Over known' := by
  cases hv with
  | @primitive t _ =>
    exact ⟨_, fun _ => .inl, h.extend (x := ⟨n, t, origin⟩) rfl, Term.over_symbol (.inr rfl)⟩
  | reference _ _ => exact ⟨known, le_refl _, h.mono (Nat.le_succ n), trivial⟩

theorem Numbering.fieldsStand (h : Numbering known m) {r : RefSymbol} {fields : List FieldInfo}
    {values : List (String × Value)} (hvalues : FieldsStand r fields m values n) :
    ∃ known', known ≤ known' ∧ Numbering known' n ∧ ∀ b ∈ values, b.2.Over known' := by
  induction hvalues generalizing known with
  | nil => exact ⟨known, le_refl _, h, nofun⟩
  | cons hv _ ih =>
    obtain ⟨known', hle, hnumbering, hv'⟩ := h.stands hv
    obtain ⟨known'', hle', hnumbering', hvalues'⟩ := ih hnumbering
    exact ⟨known'', hle.trans hle', hnumbering',
      List.forall_mem_cons.2 ⟨hv'.mono hle', hvalues'⟩⟩

mutual

/-- Terms over known symbols that look the same are the same. -/
theorem Term.eq_of_same (h : Numbering known n) : ∀ {a b : Term},
    (∀ x ∈ a.occurrences, known x) → (∀ x ∈ b.occurrences, known x) → Term.same a b = true → a = b
  | .constant c, .constant d, _, _, hsame => by
    simp only [Term.same, beq_iff_eq] at hsame
    rw [hsame]
  | .symbol x, .symbol y, ha, hb, hsame => by
    simp only [Term.same, Symbol.beq_eq, beq_iff_eq] at hsame
    rw [h.distinct (ha x List.mem_cons_self) (hb y List.mem_cons_self) hsame]
  | .unary op s a, .unary op' t b, ha, hb, hsame => by
    simp only [Term.same, Bool.and_eq_true, beq_iff_eq] at hsame
    obtain ⟨⟨rfl, rfl⟩, hsame⟩ := hsame
    rw [Term.eq_of_same h (a := a) (b := b) ha hb hsame]
  | .binary op s a a', .binary op' t b b', ha, hb, hsame => by
    simp only [Term.same, Bool.and_eq_true, beq_iff_eq] at hsame
    obtain ⟨⟨⟨rfl, rfl⟩, hleft⟩, hright⟩ := hsame
    simp only [Term.occurrences, List.forall_mem_append] at ha hb
    rw [Term.eq_of_same h ha.1 hb.1 hleft, Term.eq_of_same h ha.2 hb.2 hright]
  | .application s f args, .application t g args', ha, hb, hsame => by
    simp only [Term.same, Bool.and_eq_true, beq_iff_eq] at hsame
    obtain ⟨⟨rfl, rfl⟩, hsame⟩ := hsame
    rw [Term.eq_of_sameAll h ha hb hsame]
  | .conversion s a, .conversion t b, ha, hb, hsame => by
    simp only [Term.same, Bool.and_eq_true, beq_iff_eq] at hsame
    obtain ⟨⟨rfl, -⟩, hsame⟩ := hsame
    rw [Term.eq_of_same h (a := a) (b := b) ha hb hsame]

theorem Term.eq_of_sameAll (h : Numbering known n) : ∀ {as bs : List Term},
    (∀ x ∈ Term.occurrencesAll as, known x) → (∀ x ∈ Term.occurrencesAll bs, known x) →
      Term.sameAll as bs = true → as = bs
  | [], [], _, _, _ => rfl
  | a :: as, b :: bs, ha, hb, hsame => by
    simp only [Term.sameAll, Bool.and_eq_true] at hsame
    simp only [Term.occurrencesAll, List.forall_mem_append] at ha hb
    rw [Term.eq_of_same h ha.1 hb.1 hsame.1, Term.eq_of_sameAll h ha.2 hb.2 hsame.2]

end

end Known

/-! ## States over known symbols -/

/-- An index at which an array can be read and written. -/
structure Term.IsIndex (known : Symbol → Prop) (t : Term) : Prop extends t.Over known where
  type_eq : t.type = .int

/-- What is in an object is over known symbols. -/
structure HeapObject.Over (known : Symbol → Prop) (o : HeapObject) : Prop where
  contents : ∀ v, o.Contains v → v.Over known
  length : ∀ a, o = .array a → a.length.IsIndex known
  indices : ∀ a, o = .array a → ∀ entry ∈ a.entries, entry.index.IsIndex known

/-- What is in a frame is over known symbols, and not more than its operand stack holds. -/
structure Frame.Over (known : Symbol → Prop) (f : Frame) : Prop where
  operands : ∀ v ∈ f.operands.operands, v.Over known
  slots : ∀ v, some v ∈ f.locals.slots → v.Over known
  depth : f.operands.operands.length ≤ f.operands.maxDepth

/-- A symbol occurs in a state. -/
inductive State.Has (s : State) (x : Symbol) : Prop
  | shown {t : Term} (ht : s.Shows (.primitive t)) (hx : x ∈ t.occurrences)
  | index {address : Nat} {a : ArrayObject} {entry : ArrayEntry}
      (ha : s.heap.get address = .ok (.array a)) (hentry : entry ∈ a.entries)
      (hx : x ∈ entry.index.occurrences)

namespace Engine

/-- Everything in a state and in a hand is over known symbols. -/
structure Typed (known : Symbol → Prop) (s : State) (hand : List Value) : Prop where
  frames : ∀ f ∈ s.frames, f.Over known
  heap : ∀ {address o}, s.heap.get address = .ok o → o.Over known
  hand : ∀ v ∈ hand, v.Over known
  numbering : Numbering known s.nextSymbol

variable {e : Engine ω τ} {known known' : Symbol → Prop} {s t : State} {hand hand' : List Value}

theorem typed_root : Typed (fun _ => False) .root [] where
  frames := nofun
  heap := nofun
  hand := nofun
  numbering := ⟨nofun, nofun⟩

namespace Typed

theorem toState (h : Typed known s hand) : Typed known s [] := { h with hand := nofun }

theorem cons (h : Typed known s hand) {v : Value} (hv : v.Over known) :
    Typed known s (v :: hand) := { h with hand := List.forall_mem_cons.2 ⟨hv, h.hand⟩ }

theorem shows (h : Typed known s hand) {v : Value} (hv : s.Shows v) : v.Over known := by
  cases hv with
  | operand hf hv => exact (h.frames _ hf).operands _ hv
  | slot hf hv => exact (h.frames _ hf).slots _ hv
  | content ho hv => exact (h.heap ho).contents _ hv
  | length ha => exact ((h.heap ha).length _ rfl).toOver

theorem known_of_has (h : Typed known s hand) {x : Symbol} (hx : s.Has x) : known x := by
  cases hx with
  | shown ht hx => exact (h.shows ht).known x hx
  | index ha hentry hx => exact ((h.heap ha).indices _ rfl _ hentry).known x hx

/-- Symbols that do not occur in a state need not be known. -/
theorem restrict (h : Typed known' s []) (hle : known ≤ known') :
    Typed (fun x => known x ∨ s.Has x) s [] := by
  have hover : ∀ {v}, s.Shows v → v.Over (fun x => known x ∨ s.Has x) := by
    intro v hv
    cases v with
    | reference r => trivial
    | primitive t => exact ⟨(h.shows hv).wellTyped, fun x hx => .inr (.shown hv hx)⟩
  exact
    { frames := fun f hf =>
        { operands := fun v hv => hover (.operand hf hv)
          slots := fun v hv => hover (.slot hf hv)
          depth := (h.frames f hf).depth }
      heap := fun ho =>
        { contents := fun v hv => hover (.content ho hv)
          length := by
            rintro a rfl
            exact ⟨hover (.length ho), ((h.heap ho).length a rfl).type_eq⟩
          indices := by
            rintro a rfl entry hentry
            have hindex := (h.heap ho).indices a rfl entry hentry
            exact ⟨⟨hindex.wellTyped, fun x hx => .inr (.index ho hentry hx)⟩, hindex.type_eq⟩ }
      hand := nofun
      numbering := h.numbering.restrict (by
        rintro x (hx | hx)
        · exact hle x hx
        · exact h.known_of_has hx) }

/-- More symbols may be known, and numbers be taken. -/
theorem extend (h : Typed known s hand) (hle : known ≤ known') {n : Nat}
    (hnumbering : Numbering known' n) : Typed known' (s.withSymbols n) hand where
  frames f hf :=
    { operands := fun v hv => ((h.frames f hf).operands v hv).mono hle
      slots := fun v hv => ((h.frames f hf).slots v hv).mono hle
      depth := (h.frames f hf).depth }
  heap ho :=
    { contents := fun v hv => ((h.heap ho).contents v hv).mono hle
      length := fun a ha =>
        ⟨((h.heap ho).length a ha).toOver.mono hle, ((h.heap ho).length a ha).type_eq⟩
      indices := fun a ha entry hentry =>
        ⟨((h.heap ho).indices a ha entry hentry).toOver.mono hle,
          ((h.heap ho).indices a ha entry hentry).type_eq⟩ }
  hand v hv := (h.hand v hv).mono hle
  numbering := hnumbering

theorem withFrame (h : Typed known s hand) {f g : Frame} {rest : List Frame}
    (hframes : s.frames = f :: rest) (hg : g.Over known) :
    Typed known (s.withFrames (g :: rest)) hand :=
  { h with
    frames := by
      rintro f' (_ | ⟨_, hf'⟩)
      · exact hg
      · exact h.frames f' (hframes ▸ List.mem_cons_of_mem _ hf') }

theorem drop (h : Typed known s hand) {f : Frame} {rest : List Frame} {v : Value}
    {below : List Value} (hframes : s.frames = f :: rest)
    (hoperands : f.operands.operands = v :: below) :
    Typed known (popped s f below rest) hand := by
  have hf := h.frames f (hframes ▸ List.mem_cons_self)
  have hoperands' := hf.operands
  have hdepth := hf.depth
  rw [hoperands] at hoperands' hdepth
  exact h.withFrame hframes
    { operands := fun w hw => hoperands' w (List.mem_cons_of_mem _ hw)
      slots := hf.slots
      depth := Nat.le_of_succ_le hdepth }

theorem push (h : Typed known s hand) {f : Frame} {rest : List Frame} {v : Value}
    (hv : v.Over known) (hframes : s.frames = f :: rest)
    (hroom : f.operands.size + 1 ≤ f.operands.maxDepth) :
    Typed known (s.withFrames
      ({ f with operands := { f.operands with operands := v :: f.operands.operands } } :: rest))
      hand := by
  have hf := h.frames f (hframes ▸ List.mem_cons_self)
  exact h.withFrame hframes
    { operands := List.forall_mem_cons.2 ⟨hv, hf.operands⟩
      slots := hf.slots
      depth := hroom }

theorem withObject (h : Typed known s hand) {k : Heap} {address : Nat} {o : HeapObject}
    (hk : k = s.heap.insertAt address o) (ho : o.Over known) :
    Typed known (s.withHeap k) hand :=
  { h with
    heap := by
      subst hk
      intro b p hp
      rcases State.get_insertAt_cases hp with ⟨-, rfl⟩ | hp
      · exact ho
      · exact h.heap hp }

theorem withInput (h : Typed known s hand) {o : HeapObject} (ho : o.Over known) :
    Typed known (s.withInput o) hand := { h.withObject rfl ho with }

theorem record (h : Typed known s hand) {address : Nat} {index : Term} {v : Value} {k : Heap}
    (hv : v.Over known) (hindex : index.IsIndex known)
    (hk : s.heap.arraySet address index v = .ok k) : Typed known (s.withHeap k) hand := by
  obtain ⟨a, ha, heq⟩ := bind_eq_ok.1 hk
  cases heq
  have hold := h.heap (Heap.getArray_eq_ok.1 ha)
  -- An entry of the new list was there before or is the new one, which comes last.
  have hentries : ∀ entry ∈ (a.set index v).entries,
      entry.index.IsIndex known ∧ entry.value.Over known := by
    intro entry hentry
    rcases List.mem_append.1 hentry with hentry | hentry
    · have hmem := (List.mem_filter.1 hentry).1
      exact ⟨hold.indices a rfl entry hmem, hold.contents _ ⟨entry, hmem, rfl⟩⟩
    · cases List.mem_singleton.1 hentry
      exact ⟨hindex, hv⟩
  refine h.withObject rfl ⟨?_, ?_, ?_⟩
  · rintro w ⟨entry, hentry, rfl⟩
    exact (hentries entry hentry).2
  · rintro b ⟨⟩
    exact hold.length a rfl
  · rintro b ⟨⟩ entry hentry
    exact (hentries entry hentry).1

theorem blank (h : Typed known s hand) {o : HeapObject} (ho : o.IsBlank hand) : o.Over known := by
  cases ho with
  | object hfields =>
    refine ⟨?_, nofun, nofun⟩
    rintro v ⟨name, hname⟩
    exact Value.over_of_isPlain (hfields _ (State.mem_of_get?_ofList hname))
  | array hlength hint =>
    refine ⟨?_, ?_, ?_⟩
    · rintro v ⟨entry, hentry, -⟩
      cases hentry
    · rintro a ⟨⟩
      exact ⟨h.hand _ hlength, hint⟩
    · rintro a ⟨⟩
      exact nofun

/-- An input object knows the symbols that were made for it. -/
theorem expansion (h : Typed known s hand) {r : RefSymbol} {className : String}
    {fields : List FieldInfo} {o : HeapObject} {n : Nat}
    (ho : Expansion r className fields s.nextSymbol o n) :
    ∃ known', known ≤ known' ∧ Numbering known' n ∧ o.Over known' := by
  cases ho with
  | array _ =>
    have hx : Numbering _ (s.nextSymbol + 1) :=
      h.numbering.extend (x := ⟨s.nextSymbol, .int, .length r⟩) rfl
    refine ⟨_, fun _ => .inl, hx, ?_, ?_, ?_⟩
    · rintro v ⟨entry, hentry, -⟩
      cases hentry
    · rintro a ⟨⟩
      exact ⟨Term.over_symbol (.inr rfl), rfl⟩
    · rintro a ⟨⟩
      exact nofun
  | object _ hvalues =>
    obtain ⟨known', hle, hnumbering, hover⟩ := h.numbering.fieldsStand hvalues
    refine ⟨known', hle, hnumbering, ?_, nofun, nofun⟩
    rintro v ⟨name, hname⟩
    exact hover _ (State.mem_of_get?_ofList hname)

end Typed

/-- After an act everything is over the symbols that were known and those that it made. -/
theorem Act.typed (h : Typed known s hand) (hact : Act e s hand t hand') :
    ∃ known', known ≤ known' ∧ Typed known' t hand' := by
  have hsame : Typed known t hand' → ∃ known', known ≤ known' ∧ Typed known' t hand' :=
    fun ht => ⟨known, le_refl _, ht⟩
  -- Only names of primitives and expansions bring in symbols.
  cases hact with
  | take hv => exact hsame (h.cons (h.shows hv))
  | make hv => exact hsame (h.cons (Value.over_of_isPlain hv))
  | widen hv hw => exact hsame (h.cons ((h.hand _ hv).widen hw))
  | apply hargs => exact hsame (h.cons (Term.over_application fun a ha => h.hand _ (hargs a ha)))
  | drop hframes hoperands => exact hsame (h.drop hframes hoperands)
  | push hv hframes hroom => exact hsame (h.push (h.hand _ hv) hframes hroom)
  | jump hframes _ =>
    have hf := h.frames _ (hframes ▸ List.mem_cons_self)
    exact hsame (h.withFrame hframes ⟨hf.operands, hf.slots, hf.depth⟩)
  | @enter f hoperands hlocals =>
    have hf : f.Over known :=
      { operands := by
          rw [hoperands]
          exact nofun
        slots := fun v hv => h.hand v (hlocals v hv)
        depth := by
          rw [hoperands]
          exact Nat.zero_le _ }
    exact hsame { h with frames := List.forall_mem_cons.2 ⟨hf, h.frames⟩ }
  | place _ _ => exact hsame { h with }
  | @namePrimitive type origin _ =>
    have hx := h.numbering.extend (x := ⟨s.nextSymbol, type, origin⟩) rfl
    exact ⟨_, fun _ => .inl, (h.extend (fun _ => .inl) hx).cons (Term.over_symbol (.inr rfl))⟩
  | nameReference _ =>
    exact hsame ((h.extend (le_refl _) (h.numbering.mono (Nat.le_succ _))).cons trivial)
  | skip hn => exact hsame (h.extend (le_refl _) (h.numbering.mono hn))
  | allocate hobject => exact hsame ((h.withObject rfl (h.blank hobject)).cons trivial)
  | record hv hindex hint hset =>
    exact hsame (h.record (h.hand _ hv) ⟨h.hand _ hindex, hint⟩ hset)
  | throw className =>
    have hempty : (HeapObject.object (.create className none [])).Over known :=
      h.blank (.object nofun)
    exact hsame { h.withObject rfl hempty with }
  | assume _ _ _ | isNull _ _ | aliases _ _ _ _ | initialized _ _ _ => exact hsame { h with }
  | expands _ _ _ hobject _ =>
    obtain ⟨known', hle, hnumbering, hover⟩ := h.expansion hobject
    exact ⟨known', hle, { (h.extend hle hnumbering).withInput hover with }⟩

theorem Acts.typed (hacts : Acts e s hand t hand') (h : Typed known s hand) :
    ∃ known', known ≤ known' ∧ Typed known' t hand' := by
  refine hacts.keeps (P := fun s hand => ∃ known', known ≤ known' ∧ Typed known' s hand) ?_
    ⟨known, le_refl _, h⟩
  rintro s hand t hand' ⟨known', hle, h⟩ hact
  obtain ⟨known'', hle', h'⟩ := hact.typed h
  exact ⟨known'', hle.trans hle', h'⟩

/-! ## Paths -/

/-- The states that a program gets to by steps, by stores into arrays, and by operands that are
put on the stack and taken off, with the symbols that have occurred on the way.  What is stored or
put on the stack is made of these. -/
inductive GetsTo (e : Engine ω τ) : State → (Symbol → Prop) → Prop
  | start {method : MethodSignature} {isStatic : Bool} {code : List UInt8}
      {maxLocals maxStack : Nat} {table : List LocalVariable} {s : State}
      (h : e.initialState method isStatic code maxLocals table maxStack = .ok s) :
      GetsTo e s s.Has
  | step {s t : State} {known : Symbol → Prop} {i : Instruction} {ses ses' : Session ω τ}
      {successors : List State} (h : GetsTo e s known)
      (hrun : (e.step i s).run ses = (.ok successors, ses')) (ht : t ∈ successors) :
      GetsTo e t fun x => known x ∨ t.Has x
  | store {s t : State} {known : Symbol → Prop} {address : Nat} {index : Term} {v : Value}
      {result : Except MemoryError Unit} (h : GetsTo e s known) (hindex : index.IsIndex known)
      (hv : v.Over known) (hrun : (State.arraySet address index v).run s = (result, t)) :
      GetsTo e t known
  | push {s t : State} {known : Symbol → Prop} {v : Value} {result : Except MemoryError Unit}
      (h : GetsTo e s known) (hv : v.Over known)
      (hrun : (State.pushOperand v).run s = (result, t)) : GetsTo e t known
  | pop {s t : State} {known : Symbol → Prop} {result : Except MemoryError Value}
      (h : GetsTo e s known) (hrun : State.popOperand.run s = (result, t)) : GetsTo e t known

/-- Every state that a path gets to is typed. -/
theorem GetsTo.typed (htriggers : e.triggers = .absent τ) (h : e.GetsTo s known) :
    Typed known s [] := by
  induction h with
  | start h =>
    obtain ⟨hand, hacts⟩ := initialState_acts h
    obtain ⟨known', -, htyped⟩ := hacts.typed typed_root
    have hle : (fun _ : Symbol => False) ≤ known' := nofun
    simpa only [false_or] using htyped.toState.restrict hle
  | step _ hrun ht ih =>
    obtain ⟨hand, hacts⟩ := actsTo_of_run htriggers hrun ht
    obtain ⟨known', hle, htyped⟩ := hacts.typed ih
    exact htyped.toState.restrict hle
  | @store s t known address index v result _ hindex hv hrun ih =>
    have hmeets : (State.arraySet address index v).Meets s (fun _ t => Typed known t [])
        fun _ t => Typed known t [] :=
      State.meets_arraySet (fun _ hk => ih.record hv hindex hk) fun _ _ => ih
    exact hmeets.of_run hrun
  | @push s t known v result _ hv hrun ih =>
    have hmeets : (State.pushOperand v).Meets s (fun _ t => Typed known t [])
        fun _ t => Typed known t [] :=
      State.meets_pushOperand (fun _ _ hframes hroom => ih.push hv hframes hroom) fun _ _ => ih
    exact hmeets.of_run hrun
  | @pop s t known result _ hrun ih =>
    have hmeets : State.popOperand.Meets s (fun _ t => Typed known t [])
        fun _ t => Typed known t [] :=
      State.meets_popOperand (fun _ _ _ _ hframes hoperands => ih.drop hframes hoperands)
        fun _ _ => ih
    exact hmeets.of_run hrun

end Engine

end SymbolicMachine
