import BlogSample.DotNet
import Mathlib.Data.List.Basic

/-!
# Two Ways to Create an Object

`ObjectProvider` of the benchmark. `ReflectionCreator` leaves the choice of the
constructor to `Activator.CreateInstance`, which looks at the arguments of each
call. `ExpressionCreator` compiles a call of the first constructor once, when
there are no arguments yet, and only casts what it is given.

What the two ask of the types at run time is a `TypeSystem`. A constructor
matches the number and the types of the arguments, so a `params` array stands
for itself; of several that match, the binder selects one by a rule that is not
fixed here. Reflection then changes an argument to the type of its parameter: it
widens a primitive value, and it makes a default value of `null`. A cast does
neither.

## Main definitions

* `TypeSystem`: The questions about types.
* `Binder`: How one of several matching constructors is selected.
* `reflectionCreator`, `expressionCreator`: The two methods.
* `Passes`: An argument that a cast lets through as it is.

## Theorems

* `mem_of_createInstance`: What reflection selects.
* `convert_eq_ok_iff`: A cast against a change of type.
* `ctor_of_expressionCreator`: The constructor that the factory calls.
* `creators_agree_iff`: When the two methods agree.
-/

namespace BlogSample

namespace ExpressionVsReflection

open DotNet

/-- An object: `null`, or a value with its type at run time. -/
abbrev Obj (κ ν : Type) := Option (κ × ν)

/-- The questions about types. In all of them the type of the parameter comes
    first. -/
structure TypeSystem (κ ν : Type) where
  /-- A reference type or a nullable one. -/
  acceptsNull : κ → Bool
  isAssignableFrom : κ → κ → Bool
  canChangePrimitive : κ → κ → Bool
  changePrimitive : κ → κ → ν → ν
  defaultValue : κ → ν
  /-- Two types of one representation, such as an enumeration and its integers. -/
  unboxes : κ → κ → Bool
  changePrimitive_eq : ∀ t s v, unboxes t s = true → changePrimitive t s v = v

/-- `ParameterInfo`. The type of a `ref` or `out` parameter is the one referred to. -/
structure ParameterInfo (κ : Type) where
  parameterType : κ
  isByRef : Bool
  deriving DecidableEq

/-- `ConstructorInfo`, told apart by the parameters. -/
structure ConstructorInfo (κ : Type) where
  parameters : List (ParameterInfo κ)
  deriving DecidableEq

/-- A constructor with the arguments it is invoked with. -/
structure Invocation (κ ν : Type) where
  ctor : ConstructorInfo κ
  arguments : List (Obj κ ν)
  deriving DecidableEq

variable {κ ν : Type}

/-! ### Reflection -/

namespace TypeSystem

variable (T : TypeSystem κ ν)

/-- An argument fits a parameter. `null` fits every one. -/
def fits (t : κ) : Obj κ ν → Bool
  | none => true
  | some (s, _) => T.isAssignableFrom t s || T.canChangePrimitive t s

/-- The argument as the constructor gets it. -/
def changeType (t : κ) : Obj κ ν → Obj κ ν
  | none => if T.acceptsNull t then none else some (t, T.defaultValue t)
  | some (s, v) =>
      if T.isAssignableFrom t s then some (s, v) else some (t, T.changePrimitive t s v)

end TypeSystem

/-- A constructor matches the number and the types of the arguments. -/
def ConstructorInfo.accepts (T : TypeSystem κ ν) (args : List (Obj κ ν))
    (ctor : ConstructorInfo κ) : Bool :=
  ctor.parameters.length == args.length &&
    (ctor.parameters.zip args).all (fun q => T.fits q.1.parameterType q.2)

/-- How one of the matching constructors is selected. It may be that none is more
    specific than the others, but a single one is selected. -/
structure Binder (κ ν : Type) where
  selectMostSpecific : List (ConstructorInfo κ) → List (Obj κ ν) → Option (ConstructorInfo κ)
  mem : ∀ ctors args ctor, selectMostSpecific ctors args = some ctor → ctor ∈ ctors
  singleton : ∀ ctor args, selectMostSpecific [ctor] args = some ctor

/-- `Activator.CreateInstance(type, args)`, where `none` is an exception. -/
def createInstance (T : TypeSystem κ ν) (B : Binder κ ν) (ctors : List (ConstructorInfo κ))
    (args : List (Obj κ ν)) : Option (Invocation κ ν) :=
  (B.selectMostSpecific (ctors.filter (·.accepts T args)) args).map (fun ctor =>
    { ctor := ctor
      arguments := List.zipWith (fun p => T.changeType p.parameterType) ctor.parameters args })

/-- `ReflectionCreator<T>(args)`. -/
def reflectionCreator (T : TypeSystem κ ν) (B : Binder κ ν) (ctors : List (ConstructorInfo κ))
    (args : List (Obj κ ν)) : Option (Invocation κ ν) :=
  createInstance T B ctors args

/-! ### Expressions -/

/-- The expressions for the arguments. -/
inductive Expression (κ : Type) where
  | arrayIndex (index : Nat)
  | convert (expression : Expression κ) (type : ParameterInfo κ)

/-- The expression for a new object. -/
structure NewExpression (κ : Type) where
  ctor : ConstructorInfo κ
  arguments : List (Expression κ)

/-- `Expression.New(ctor, arguments)`, which takes no value for a reference. -/
def Expression.new (ctor : ConstructorInfo κ) (arguments : List (Expression κ)) :
    Except Exn (NewExpression κ) :=
  if ctor.parameters.any (·.isByRef) then throw .argument
  else pure { ctor := ctor, arguments := arguments }

/-- The cast of an object to a type. -/
def TypeSystem.convert (T : TypeSystem κ ν) (t : κ) : Obj κ ν → Except Exn (Obj κ ν)
  | none => if T.acceptsNull t then pure none else throw .nullReference
  | some (s, v) =>
      if T.isAssignableFrom t s then pure (some (s, v))
      -- A boxed value has to be of the type itself, so nothing is widened.
      else if T.unboxes t s then pure (some (t, v))
      else throw .invalidCast

/-- The value of a compiled expression for the elements of `args`. -/
def Expression.eval (T : TypeSystem κ ν) (args : List (Obj κ ν)) :
    Expression κ → Except Exn (Obj κ ν)
  | arrayIndex index =>
      match args[index]? with
      | some arg => pure arg
      | none => throw .indexOutOfRange
  | convert expression type => do
      let o ← expression.eval T args
      T.convert type.parameterType o

/-- `lambda.Compile()`. -/
def NewExpression.compile (T : TypeSystem κ ν) (newExp : NewExpression κ)
    (args : List (Obj κ ν)) : Except Exn (Invocation κ ν) := do
  let arguments ← newExp.arguments.mapM (Expression.eval T args)
  pure { ctor := newExp.ctor, arguments := arguments }

/-- `paramCastExp`. -/
def paramCastExp (p : ParameterInfo κ × Nat) : Expression κ :=
  .convert (.arrayIndex p.2) p.1

/-- `ExpressionCreator<T>()`. -/
def expressionCreator (T : TypeSystem κ ν) (ctors : List (ConstructorInfo κ)) :
    Except Exn (List (Obj κ ν) → Except Exn (Invocation κ ν)) :=
  match ctors.head? with
  -- `FirstOrDefault` has given `null`, which has no `GetParameters`.
  | none => throw .nullReference
  | some ctor => do
      let newExp ← Expression.new ctor (ctor.parameters.zipIdx.map paramCastExp)
      pure (newExp.compile T)

/-- `ExpressionCreator<T>()(args)`. -/
def createByExpression (T : TypeSystem κ ν) (ctors : List (ConstructorInfo κ))
    (args : List (Obj κ ν)) : Except Exn (Invocation κ ν) := do
  let create ← expressionCreator T ctors
  create args

/-! ### What the two ways do -/

/-- An argument that a cast lets through: `null` where it is allowed, or a value of
    the type of the parameter. -/
def TypeSystem.Passes (T : TypeSystem κ ν) (t : κ) : Obj κ ν → Prop
  | none => T.acceptsNull t = true
  | some (s, _) => T.isAssignableFrom t s = true ∨ T.unboxes t s = true

instance (T : TypeSystem κ ν) (t : κ) (o : Obj κ ν) : Decidable (T.Passes t o) :=
  match o with
  | none => inferInstanceAs (Decidable (_ = _))
  | some _ => inferInstanceAs (Decidable (_ ∨ _))

section

variable {T : TypeSystem κ ν} {B : Binder κ ν} {ctors : List (ConstructorInfo κ)}
  {args : List (Obj κ ν)} {inv : Invocation κ ν}

/-- A cast that succeeds gives what a change of type gives. -/
theorem convert_eq_ok_iff (t : κ) (o o' : Obj κ ν) :
    T.convert t o = .ok o' ↔ T.Passes t o ∧ T.changeType t o = o' := by
  cases o with
  | none =>
      unfold TypeSystem.convert TypeSystem.Passes TypeSystem.changeType
      by_cases hnull : T.acceptsNull t = true
      · rw [if_pos hnull, if_pos hnull]
        exact ⟨fun h => ⟨hnull, Except.ok.inj h⟩, fun h => congrArg Except.ok h.2⟩
      · rw [if_neg hnull]
        exact iff_of_false (fun h => by cases h) (fun h => hnull h.1)
  | some p =>
      rcases p with ⟨s, v⟩
      unfold TypeSystem.convert TypeSystem.Passes TypeSystem.changeType
      by_cases hassign : T.isAssignableFrom t s = true
      · simp only [if_pos hassign]
        exact ⟨fun h => ⟨.inl hassign, Except.ok.inj h⟩, fun h => congrArg Except.ok h.2⟩
      · simp only [if_neg hassign]
        by_cases hunbox : T.unboxes t s = true
        · rw [if_pos hunbox, T.changePrimitive_eq t s v hunbox]
          exact ⟨fun h => ⟨.inr hunbox, Except.ok.inj h⟩, fun h => congrArg Except.ok h.2⟩
        · rw [if_neg hunbox]
          exact iff_of_false (fun h => by cases h) (fun h => h.1.elim hassign hunbox)

/-- The expression for a parameter casts the argument at its position. -/
theorem eval_paramCastExp (p : ParameterInfo κ) (before rest : List (Obj κ ν)) (o : Obj κ ν) :
    (paramCastExp (p, before.length)).eval T (before ++ o :: rest) =
      T.convert p.parameterType o := by
  have hget : (before ++ o :: rest)[before.length]? = some o := by
    rw [List.getElem?_append_right (Nat.le_refl _), Nat.sub_self]
    rfl
  unfold paramCastExp Expression.eval Expression.eval
  simp only [hget]
  rfl

/-- The casts of the loop succeed just if each argument passes. -/
theorem mapM_eval_iff (ps : List (ParameterInfo κ)) (before rest arguments : List (Obj κ ν))
    (hlength : ps.length = rest.length) :
    ((ps.zipIdx before.length).map paramCastExp).mapM (Expression.eval T (before ++ rest)) =
        .ok arguments ↔
      (∀ q ∈ ps.zip rest, T.Passes q.1.parameterType q.2) ∧
        List.zipWith (fun p => T.changeType p.parameterType) ps rest = arguments := by
  -- The arguments of the parameters that come before stay in front.
  induction ps generalizing before rest arguments with
  | nil =>
      rw [List.zipIdx_nil, List.map_nil, List.mapM_nil, List.zip_nil_left, List.zipWith_nil_left]
      exact ⟨fun h => ⟨fun q hq => absurd hq List.not_mem_nil, Except.ok.inj h⟩,
        fun h => congrArg Except.ok h.2⟩
  | cons p ps ih =>
      cases rest with
      | nil => cases hlength
      | cons o rest =>
          rw [List.length_cons, List.length_cons, Nat.add_right_cancel_iff] at hlength
          have htail := fun arguments => ih (before ++ [o]) rest arguments hlength
          rw [List.length_append, List.length_singleton, List.append_assoc,
            List.singleton_append] at htail
          rw [List.zipIdx_cons, List.map_cons, List.mapM_cons, eval_paramCastExp,
            List.zip_cons_cons, List.forall_mem_cons, List.zipWith_cons_cons]
          constructor
          · intro h
            rcases bind_eq_ok h with ⟨o', ho', h⟩
            rcases bind_eq_ok h with ⟨os, hos, h⟩
            rcases (convert_eq_ok_iff _ _ _).mp ho' with ⟨hpass, rfl⟩
            rcases (htail os).mp hos with ⟨hall, rfl⟩
            exact ⟨⟨hpass, hall⟩, Except.ok.inj h⟩
          · rintro ⟨⟨hpass, hall⟩, rfl⟩
            rw [(convert_eq_ok_iff _ _ _).mpr ⟨hpass, rfl⟩]
            have hos := (htail _).mpr ⟨hall, rfl⟩
            simp only [hos]
            rfl

/-- Reflection selects one of the constructors, with as many parameters as there are
    arguments. -/
theorem mem_of_createInstance (h : createInstance T B ctors args = some inv) :
    inv.ctor ∈ ctors ∧ inv.ctor.parameters.length = args.length ∧ inv.arguments =
      List.zipWith (fun p => T.changeType p.parameterType) inv.ctor.parameters args := by
  unfold createInstance at h
  rcases Option.map_eq_some_iff.mp h with ⟨ctor, hselect, rfl⟩
  rcases List.mem_filter.mp (B.mem _ _ _ hselect) with ⟨hmem, haccepts⟩
  unfold ConstructorInfo.accepts at haccepts
  rw [Bool.and_eq_true] at haccepts
  exact ⟨hmem, beq_iff_eq.mp haccepts.1, rfl⟩

/-- The factory calls the first constructor, which has no parameter by reference, with
    the arguments that its casts let through. -/
theorem createByExpression_eq_ok_iff : createByExpression T ctors args = .ok inv ↔
    ctors.head? = some inv.ctor ∧ (∀ p ∈ inv.ctor.parameters, p.isByRef = false) ∧
      (inv.ctor.parameters.zipIdx.map paramCastExp).mapM (Expression.eval T args) =
        .ok inv.arguments := by
  unfold createByExpression expressionCreator
  cases hhead : ctors.head? with
  | none => exact iff_of_false (fun h => by cases h) (fun h => by cases h.1)
  | some ctor =>
      unfold Expression.new
      -- `Expression.New` takes no argument for a parameter by reference.
      by_cases hbyRef : ctor.parameters.any (·.isByRef) = true
      · simp only [if_pos hbyRef]
        refine iff_of_false (fun h => by cases h) (fun h => ?_)
        rcases List.any_eq_true.mp hbyRef with ⟨p, hp, htrue⟩
        rw [Option.some.inj h.1] at hp
        rw [h.2.1 p hp] at htrue
        cases htrue
      · simp only [if_neg hbyRef]
        constructor
        -- The compiled lambda evaluates the arguments one after the other.
        · intro h
          have hcompile : NewExpression.compile T _ args = .ok inv := h
          rcases bind_eq_ok hcompile with ⟨as, has, h⟩
          cases h
          refine ⟨rfl, fun p hp => ?_, has⟩
          cases hp' : p.isByRef with
          | false => rfl
          | true => exact absurd (List.any_eq_true.mpr ⟨p, hp, hp'⟩) hbyRef
        · rintro ⟨hctor, -, has⟩
          cases hctor
          have hcompile : NewExpression.compile T
              ⟨inv.ctor, inv.ctor.parameters.zipIdx.map paramCastExp⟩ args = .ok inv := by
            unfold NewExpression.compile
            simp only [has]
            rfl
          exact hcompile

/-- Where reflection succeeds, the factory only calls the first constructor. It does
    what reflection does just if reflection selects this one, no parameter of it is by
    reference and no argument has to be changed to the type of its parameter. -/
theorem creators_agree_iff (h : reflectionCreator T B ctors args = some inv) :
    (∀ inv', createByExpression T ctors args = .ok inv' → ctors.head? = some inv'.ctor) ∧
    (createByExpression T ctors args = .ok inv ↔
      ctors.head? = some inv.ctor ∧ (∀ p ∈ inv.ctor.parameters, p.isByRef = false) ∧
        ∀ q ∈ inv.ctor.parameters.zip args, T.Passes q.1.parameterType q.2) := by
  rcases mem_of_createInstance h with ⟨-, hlength, harguments⟩
  have hcasts := mapM_eval_iff (T := T) inv.ctor.parameters [] args inv.arguments hlength
  refine ⟨fun inv' h' => (createByExpression_eq_ok_iff.mp h').1, ?_⟩
  rw [createByExpression_eq_ok_iff]
  refine and_congr_right (fun _ => and_congr_right (fun _ => ?_))
  exact hcasts.trans (and_iff_left harguments.symm)

end

/-! ### Two classes -/

/-- Some types of the runtime. -/
inductive Builtin where
  | object
  | string
  | byte
  | int32
  deriving DecidableEq

/-- What the runtime answers for them, with the numbers as values. -/
def Builtin.types : TypeSystem Builtin Int where
  acceptsNull t := t = .object ∨ t = .string
  isAssignableFrom t s := t = .object ∨ t = s
  canChangePrimitive t s := s = .byte ∧ t = .int32 ∨ t = s ∧ (t = .byte ∨ t = .int32)
  changePrimitive _ _ v := v
  defaultValue _ := 0
  unboxes t s := t = s ∧ (t = .byte ∨ t = .int32)
  changePrimitive_eq _ _ _ _ := rfl

/-- The binder where at most one constructor matches. -/
def onlyCandidate : Binder κ ν where
  selectMostSpecific
    | [ctor], _ => some ctor
    | _, _ => none
  mem ctors args ctor h := by
    rcases ctors with _ | ⟨c, _ | ⟨c', ctors⟩⟩
    · cases h
    · exact List.mem_singleton.mpr (Option.some.inj h).symm
    · cases h
  singleton ctor args := rfl

/-- The two methods agree on a class with three constructors, of which the first takes a
    string, an integer and an object: the string is `null`, and the object is a byte. -/
theorem creators_agree_several : createByExpression Builtin.types
      [⟨[⟨.string, false⟩, ⟨.int32, false⟩, ⟨.object, false⟩]⟩, ⟨[⟨.int32, false⟩]⟩, ⟨[]⟩]
      [none, some (.int32, 5), some (.byte, 3)] =
    .ok ⟨⟨[⟨.string, false⟩, ⟨.int32, false⟩, ⟨.object, false⟩]⟩,
      [none, some (.int32, 5), some (.byte, 3)]⟩ := by
  refine (creators_agree_iff (B := onlyCandidate) rfl).2.mpr ⟨rfl, by decide, by decide⟩

/-- A class with a constructor without parameters before the one that takes an
    integer: the factory calls the first for an integer. -/
theorem creators_differ : ¬ ∀ (T : TypeSystem Builtin Int) (B : Binder Builtin Int)
    (ctors : List (ConstructorInfo Builtin)) (args : List (Obj Builtin Int))
    (inv : Invocation Builtin Int), reflectionCreator T B ctors args = some inv →
      createByExpression T ctors args = .ok inv := by
  intro h
  have hagree := h Builtin.types onlyCandidate [⟨[]⟩, ⟨[⟨.int32, false⟩]⟩] [some (.int32, 1)]
    ⟨⟨[⟨.int32, false⟩]⟩, [some (.int32, 1)]⟩ rfl
  cases hagree

end ExpressionVsReflection

end BlogSample
