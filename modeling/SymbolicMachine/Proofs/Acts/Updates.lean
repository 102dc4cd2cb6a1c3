import SymbolicMachine.Proofs.Acts.Act
/-!
# Updates as acts

The operations on states that an engine uses are sequences of acts, and so is what was done before
one of them failed half-way.
-/
namespace SymbolicMachine

open SymbolicMachine.Action

variable {ω τ ε σ α β : Type}

namespace Engine

/-- An action, seen as an update of the state that is part of its own, is a sequence of acts, also
where it fails. -/
def Acting (e : Engine ω τ) (view : σ → State) (m : Action σ ε α) (w : σ) (hand : List Value)
    (post : α → State → List Value → Prop) : Prop :=
  m.Meets w (fun a w' => ∃ hand', Acts e (view w) hand (view w') hand' ∧ post a (view w') hand')
    fun _ w' => ∃ hand', Acts e (view w) hand (view w') hand'

section Acting

variable {e : Engine ω τ} {view : σ → State} {w : σ} {hand : List Value}
  {post : α → State → List Value → Prop}

theorem Acting.bind {m : Action σ ε α} {k : α → Action σ ε β}
    {post' : β → State → List Value → Prop} (hm : e.Acting view m w hand post)
    (hk : ∀ a w' hand', Acts e (view w) hand (view w') hand' → post a (view w') hand' →
      e.Acting view (k a) w' hand' post') : e.Acting view (m >>= k) w hand post' := by
  unfold Acting
  rw [meets_bind]
  refine hm.mono (fun a w' ⟨hand', hacts, hpost⟩ => ?_) fun _ _ h => h
  refine (hk a w' hand' hacts hpost).mono ?_ ?_
  · rintro b w'' ⟨hand'', hacts', hpost'⟩
    exact ⟨hand'', hacts.trans hacts', hpost'⟩
  · rintro _ w'' ⟨hand'', hacts'⟩
    exact ⟨hand'', hacts.trans hacts'⟩

theorem acting_pure {a : α} (h : post a (view w) hand) :
    e.Acting view (pure a : Action σ ε α) w hand post := ⟨hand, .refl, h⟩

theorem acting_ofExcept {r : Except ε α} (h : ∀ a, r = .ok a → post a (view w) hand) :
    e.Acting view (ofExcept r : Action σ ε α) w hand post :=
  meets_ofExcept.2 ⟨fun a ha => ⟨hand, .refl, h a ha⟩, fun _ _ => ⟨hand, .refl⟩⟩

end Acting

section Updates

variable {e : Engine ω τ} {s : State} {hand : List Value}

/-! ## Frames -/

theorem acting_popOperand :
    e.Acting id State.popOperand s hand fun v _ hand' => v ∈ hand' := by
  refine State.meets_popOperand (fun f rest v below hframes hoperands => ?_)
    fun _ _ => ⟨hand, .refl⟩
  have hmem : f ∈ s.frames := hframes ▸ List.mem_cons_self
  have hshows : s.Shows v := .operand hmem (hoperands ▸ List.mem_cons_self)
  exact ⟨v :: hand, (Act.take hshows).acts.trans (Act.drop hframes hoperands).acts,
    List.mem_cons_self⟩

theorem acting_popDownward (count : Nat) :
    e.Acting id (State.popDownward count) s hand fun vs _ hand' => ∀ v ∈ vs, v ∈ hand' := by
  induction count generalizing s hand with
  | zero => exact acting_pure nofun
  | succ count ih =>
    refine acting_popOperand.bind fun v t hand' _ hv => ?_
    refine ih.bind fun vs u hand'' hacts hvs => acting_pure fun w hw => ?_
    rcases List.mem_cons.1 hw with rfl | hw
    · exact hacts.subset hv
    · exact hvs w hw

theorem acting_popOperands (count : Nat) :
    e.Acting id (State.popOperands count) s hand fun vs _ hand' => ∀ v ∈ vs, v ∈ hand' :=
  (acting_popDownward count).bind fun _ _ _ _ hvs =>
    acting_pure fun v hv => hvs v (List.mem_reverse.1 hv)

theorem acting_pushOperand {v : Value} (hv : v ∈ hand) :
    e.Acting id (State.pushOperand v) s hand fun _ _ _ => True :=
  State.meets_pushOperand
    (fun _ _ hframes hroom => ⟨hand, (Act.push hv hframes hroom).acts, trivial⟩)
    fun _ _ => ⟨hand, .refl⟩

theorem acting_incPc (offset : Nat) :
    e.Acting id (State.incPc offset) s hand fun _ _ _ => True :=
  State.meets_incPc (fun _ _ hframes hpc => ⟨hand, (Act.jump hframes hpc).acts, trivial⟩)
    fun _ _ => ⟨hand, .refl⟩

/-! ## Symbols and objects -/

theorem acts_of_stands {descriptor : String} {origin : Origin} {v : Value}
    (horigin : s.Names hand origin) (hv : Stands descriptor origin s.nextSymbol v) :
    Acts e s hand (s.withSymbols (s.nextSymbol + 1)) (v :: hand) := by
  cases hv with
  | primitive _ => exact (Act.namePrimitive horigin).acts
  | reference _ _ => exact (Act.nameReference horigin).acts

theorem acting_createSymbol {descriptor : String} {origin : Origin}
    (horigin : s.Names hand origin) :
    e.Acting id (State.createSymbol descriptor origin) s hand fun v _ hand' => v ∈ hand' :=
  State.meets_createSymbol (fun v hv => ⟨v :: hand, acts_of_stands horigin hv, List.mem_cons_self⟩)
    fun _ _ _ => ⟨hand, .refl⟩

theorem acting_allocate {object : HeapObject} (hobject : object.IsBlank hand) :
    e.Acting id (State.allocate object) s hand
      fun address _ hand' => .reference (.concrete address) ∈ hand' :=
  ⟨_, (Act.allocate hobject).acts, List.mem_cons_self⟩

theorem isPlain_default {descriptor : String} {v : Value} (h : Value.default descriptor = .ok v) :
    v.IsPlain := by
  unfold Value.default at h
  split at h
  · cases h
    exact .constant _
  · split at h
    · cases h
      exact .null
    · cases h

theorem isPlain_of_mem_defaultFields {fields : List FieldInfo} {values : List (String × Value)}
    (h : State.defaultFields fields = .ok values) : ∀ f ∈ values, f.2.IsPlain := by
  induction fields generalizing values with
  | nil =>
    cases h
    exact nofun
  | cons f rest ih =>
    obtain ⟨v, hv, h⟩ := bind_eq_ok.1 h
    obtain ⟨others, hothers, h⟩ := bind_eq_ok.1 h
    cases h
    intro g hg
    rcases List.mem_cons.1 hg with rfl | hg
    · exact isPlain_default hv
    · exact ih hothers g hg

theorem acting_createInstance (className : String) (fields : List FieldInfo) :
    e.Acting id (State.createInstance className fields) s hand
      fun address _ hand' => .reference (.concrete address) ∈ hand' := by
  have hvalues : e.Acting id (ofExcept ((State.defaultFields fields).mapError MemoryError.value)) s
      hand fun values _ _ => ∀ f ∈ values, f.2.IsPlain :=
    acting_ofExcept fun values h => isPlain_of_mem_defaultFields (mapError_eq_ok.1 h)
  exact hvalues.bind fun values t hand' _ h => acting_allocate (.object h)

theorem acting_createArray (className : String) {length : Term}
    (hlength : .primitive length ∈ hand) (hint : length.type = .int) :
    e.Acting id (State.createArray className length) s hand
      fun address _ hand' => .reference (.concrete address) ∈ hand' :=
  acting_allocate (.array hlength hint)

theorem acting_arraySet {address : Nat} {index : Term} {v : Value} (hv : v ∈ hand)
    (hindex : .primitive index ∈ hand) (hint : index.type = .int) :
    e.Acting id (State.arraySet address index v) s hand fun _ _ _ => True :=
  State.meets_arraySet (fun _ hset => ⟨hand, (Act.record hv hindex hint hset).acts, trivial⟩)
    fun _ _ => ⟨hand, .refl⟩

/-! ## Assumptions -/

theorem acting_assume {condition : Term} (h : e.Assumable s hand condition) :
    e.Acting id (State.assume condition) s hand fun _ _ _ => True :=
  State.meets_assume
    (fun hboolean => ⟨hand, (Act.assume h hboolean rfl).acts, trivial⟩) fun _ _ => ⟨hand, .refl⟩

theorem acting_assumeInitialization {className : String} {c : Clause}
    (hopen : s.initialization? className = none)
    (hc : c = .initialized className ∨ c = .notInitialized className) :
    e.Acting id (State.assumeClause c) s hand fun _ _ _ => True :=
  State.meets_assumeClause
    (fun _ hp => ⟨hand, (Act.initialized hopen hc hp).acts, trivial⟩) fun _ _ _ => ⟨hand, .refl⟩

variable {r : RefSymbol} (hr : .reference (.symbolic r) ∈ hand)

include hr

theorem acting_assumeNull : e.Acting id (State.assumeNull r) s hand fun _ _ _ => True :=
  State.meets_assumeNull (fun _ _ hp => ⟨hand, (Act.isNull hr hp).acts, trivial⟩)
    fun _ => ⟨hand, .refl⟩

theorem acting_assumeAliases {address : Nat} {o : HeapObject}
    (ho : s.initialHeap.get address = .ok o)
    (hfits : e.classes.isAssignable o.className r.staticType = true) :
    e.Acting id (State.assumeAliases r address) s hand fun _ _ _ => True := by
  refine State.meets_assumeAliases (fun p o' _ ho' hp => ?_) (fun _ => ⟨hand, .refl⟩)
    fun _ _ => ⟨hand, .refl⟩
  exact ⟨hand, (Act.aliases hr ho hfits hp).acts, trivial⟩

theorem acting_assumeExpands {className : String} {fields : List FieldInfo}
    (hclass : className = r.staticType ∨
      className ∈ (e.classes.expansionClasses r.staticType).toOption.getD [])
    (hfields : fields = [] ∨ e.classes.instanceFields className = .ok fields) :
    e.Acting id (State.assumeExpands r className fields) s hand fun _ _ _ => True :=
  State.meets_assumeExpands
    (fun _ _ _ _ hobject hp =>
      ⟨hand, (Act.expands hr hclass hfields hobject hp).acts, trivial⟩)
    (fun _ => ⟨hand, .refl⟩) fun _ _ _ _ _ hn _ _ => ⟨hand, (Act.skip hn).acts⟩

end Updates

end Engine

end SymbolicMachine
