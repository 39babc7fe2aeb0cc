import BasicDemo.Library.Classes
import BasicDemo.Library.Runs
import BasicDemo.Observing.Names
import Mathlib.Logic.Function.Basic

namespace BasicDemo.Observing
open Library.Classes

abbrev ClassName := NSString
abbrev Selector := NSString
abbrev ObjectID := Nat

/-- The implementations a method can have. `original n` stands for any method
compiled elsewhere; the two others are static functions of the category. -/
inductive Imp where
  | kvoSetter
  | kvoClass
  | original (n : Nat)
  deriving DecidableEq

/-- The types an argument or a result can have, as far as `kvo_setter` depends on them;
a scalar is a number or a structure. -/
inductive Kind where
  | void
  | object
  | scalar
  deriving DecidableEq

/-- What a type encoding says: the result, and the arguments behind `self` and `_cmd`. -/
structure Signature where
  result : Kind
  arguments : List Kind
  deriving DecidableEq

/-- The type that `kvo_setter` is compiled with, and to which it casts `objc_msgSendSuper`. -/
def kvoSetterType : Signature := ⟨.void, [.object]⟩

/-- A method with its type encoding, which may be `NULL`. -/
structure Method where
  imp : Imp
  types : Option Signature
  deriving DecidableEq

/-- `SKObservationInfo`. The observer is a weak reference, read by `weakObserver`;
the number is the identity of the info as an object. -/
structure Info where
  id : Nat
  observer : ObjectID
  key : NSString
  block : Nat
  deriving DecidableEq

/-- An object from its allocation through its `dealloc` to the end of it. -/
inductive Life where
  | alive
  | deallocating
  | dead
  deriving DecidableEq

/-- What the runtime keeps for an object: its class pointer, the associated array
of observers, nil before the first registration, and its instance variables. -/
structure Object (Data : Type) where
  isa : ClassName
  observers : Option (List Info)
  data : Data

/-- A block handed to the global queue, with the arguments it will get. -/
structure Call (Value : Type) where
  info : Info
  observedObject : ObjectID
  observeKey : NSString
  oldValue : Value
  newValue : Value
  deriving DecidableEq

structure State (Data Value : Type) where
  classes : ClassTable ClassName Selector Method
  objects : ObjectID → Object Data
  life : ObjectID → Life
  created : Nat
  scheduled : List (Call Value)

/-- The code outside the category: case mapping, `valueForKey:`, which raises for a
key it does not know, the bodies of the observed classes' own setters, which may raise
at the end, what their implementations of `class` answer for an object of a class, and
the descriptions used in error texts. A value is an object or a scalar. -/
structure Foundation (Data Value : Type) where
  letters : CaseMapping
  valueForKey : Data → NSString → Option Value
  setter : Nat → Data → Value → Data × Option Nat
  classAnswer : Nat → ClassName → Option ClassName
  description : ObjectID → NSString

variable {Data Value : Type}

def State.isa (s : State Data Value) (x : ObjectID) : ClassName := (s.objects x).isa

/-- The observer list as a loop over it sees it. -/
def State.infos (s : State Data Value) (x : ObjectID) : List Info :=
  (s.objects x).observers.getD []

def State.modify (s : State Data Value) (x : ObjectID) (f : Object Data → Object Data) :
    State Data Value :=
  { s with objects := Function.update s.objects x (f (s.objects x)) }

/-- Reading the weak property of an info. -/
def weakObserver (s : State Data Value) (info : Info) : Option ObjectID :=
  if s.life info.observer = .alive then some info.observer else none

def kvoClassPrefix : NSString := text "SKKVOClassPrefix_"

def classSelector : Selector := text "class"

def isKvoName (n : ClassName) : Bool := kvoClassPrefix.isPrefixOf n

/-- `kvo_class`; nil for a root class. -/
def kvoClass (s : State Data Value) (x : ObjectID) : Option ClassName :=
  s.classes.superclass (s.isa x)

/-- The `class` message, without an answer if it raises. -/
def classMessage (F : Foundation Data Value) (s : State Data Value) (x : ObjectID) :
    Option ClassName := do
  let method ← s.classes.resolve (s.isa x) classSelector
  match method.imp with
  | .kvoClass => kvoClass s x
  | .original n => F.classAnswer n (s.isa x)
  | .kvoSetter => none

/-- `-hasSelector:`, which asks the real class and not its superclasses. -/
def hasSelector (s : State Data Value) (x : ObjectID) (sel : Selector) : Bool :=
  (s.classes.own (s.isa x) sel).isSome

/-- `-makeKvoClassWithOriginalClassName:`. The allocation cannot fail: the name is
unused and the class of an object is registered. -/
def makeKvoClass (s : State Data Value) (x : ObjectID) (originalClazzName : ClassName) :
    ClassTable ClassName Selector Method × ClassName :=
  let kvoClazzName := kvoClassPrefix ++ originalClazzName
  if kvoClazzName ∈ s.classes.names then (s.classes, kvoClazzName)
  else
    let allocated := (s.classes.addClass kvoClazzName (s.isa x)).getD s.classes
    let types := (s.classes.resolve (s.isa x) classSelector).bind Method.types
    (allocated.addMethod kvoClazzName classSelector ⟨.kvoClass, types⟩, kvoClazzName)

/-- Point the object at its KVO class unless it already is at one. -/
def becomeKvo (s : State Data Value) (x : ObjectID) : State Data Value :=
  if isKvoName (s.isa x) then s
  else
    let made := makeKvoClass s x (s.isa x)
    { s with classes := made.1 }.modify x (fun o => { o with isa := made.2 })

def addSetter (s : State Data Value) (x : ObjectID) (sel : Selector)
    (types : Option Signature) : State Data Value :=
  if hasSelector s x sel then s
  else { s with classes := s.classes.addMethod (s.isa x) sel ⟨.kvoSetter, types⟩ }

def addInfo (s : State Data Value) (x observer : ObjectID) (key : NSString) (block : Nat) :
    State Data Value :=
  { s.modify x (fun o =>
      { o with observers := some (o.observers.getD [] ++ [⟨s.created, observer, key, block⟩]) }) with
    created := s.created + 1 }

/-- The setter selector of a key and the method for it, if the class the object claims to
be has one. A nil name gives a null selector, for which there is no method. -/
def setterMethod (F : Foundation Data Value) (s : State Data Value) (x : ObjectID)
    (key : NSString) : Option (Selector × Method) := do
  let setterSelector ← setterForGetter F.letters key
  let clazz ← classMessage F s x
  let method ← s.classes.resolve clazz setterSelector
  return (setterSelector, method)

/-- `-sk_addObserver:forKey:withBlock:`. -/
def skAddObserver (F : Foundation Data Value) (s : State Data Value) (x observer : ObjectID)
    (key : NSString) (block : Nat) : State Data Value × Option Exception :=
  match setterMethod F s x key with
  | none =>
    (s, some (.invalidArgument
      (text "Object " ++ F.description x ++ text " does not have a setter for key " ++ key)))
  | some (setterSelector, method) =>
    (addInfo (addSetter (becomeKvo s x) x setterSelector method.types) x observer key block, none)

/-- `-sk_removeObserver:forKey:`. The first matching info is removed, by identity. -/
def skRemoveObserver (s : State Data Value) (x observer : ObjectID) (key : NSString) :
    State Data Value :=
  match (s.infos x).find? (fun i => weakObserver s i = some observer ∧ i.key = key) with
  | none => s
  | some infoToRemove =>
    s.modify x (fun o =>
      { o with observers := o.observers.map (·.filter (fun i => i.id ≠ infoToRemove.id)) })

/-- Passing one object and nothing else to a method, as `kvo_setter` does in its message to
`super`. Were `kvo_setter` the method, it would start the same search from the same class
once more. -/
def passObject (F : Foundation Data Value) (data : Data) (sel : Selector) (newValue : Value) :
    Option Method → Data × Option Exception
  | none => (data, some (.unrecognizedSelector sel))
  | some ⟨.kvoSetter, _⟩ => (data, some .endlessRecursion)
  | some ⟨.kvoClass, _⟩ => (data, none)
  | some ⟨.original n, types⟩ =>
    if types = some kvoSetterType then
      ((F.setter n data newValue).1, (F.setter n data newValue).2.map .raised)
    else (data, some .undefined)

/-- The message to `super` in `kvo_setter`: what it leaves of the receiver's data, and how
it fails. -/
def msgSendSuper (F : Foundation Data Value) (s : State Data Value) (x : ObjectID)
    (sel : Selector) (newValue : Value) : Data × Option Exception :=
  passObject F (s.objects x).data sel newValue
    ((s.classes.superclass (s.isa x)).bind (fun c => s.classes.resolve c sel))

/-- The blocks one setter call schedules, in the order of the list. -/
def notifications (s : State Data Value) (x : ObjectID) (getterName : NSString)
    (oldValue newValue : Value) : List (Call Value) :=
  ((s.infos x).filter (fun i => i.key = getterName)).map
    (fun i => ⟨i, x, getterName, oldValue, newValue⟩)

/-- `kvo_setter`: the old value is read first, then the original setter runs, then
the blocks registered for the getter's name are scheduled. -/
def kvoSetter (F : Foundation Data Value) (s : State Data Value) (x : ObjectID)
    (sel : Selector) (newValue : Value) : State Data Value × Option Exception :=
  match getterForSetter F.letters sel with
  | .error e => (s, some e)
  | .ok none =>
    (s, some (.invalidArgument
      (text "Object " ++ F.description x ++ text " does not have setter " ++ sel)))
  | .ok (some getterName) =>
    match F.valueForKey (s.objects x).data getterName with
    | none => (s, some (.unknownKey getterName))
    | some oldValue =>
      let (data, failure) := msgSendSuper F s x sel newValue
      let s := s.modify x (fun o => { o with data := data })
      match failure with
      | some e => (s, some e)
      | none =>
        ({ s with
            scheduled := s.scheduled ++ notifications s x getterName oldValue newValue }, none)

/-- Sending a setter selector to an object, with an argument of the type that the method
says it has. -/
def sendSetter (F : Foundation Data Value) (s : State Data Value) (x : ObjectID)
    (sel : Selector) (newValue : Value) : State Data Value × Option Exception :=
  match s.classes.resolve (s.isa x) sel with
  | none => (s, some (.unrecognizedSelector sel))
  | some ⟨.kvoSetter, types⟩ =>
    if types = some kvoSetterType then kvoSetter F s x sel newValue
    else (s, some .undefined)
  | some ⟨.kvoClass, _⟩ => (s, none)
  | some ⟨.original n, _⟩ =>
    let (data, exception) := F.setter n (s.objects x).data newValue
    (s.modify x (fun o => { o with data := data }), exception.map .raised)

/-- An observer's `dealloc`: weak references to it read nil from its start on, then
it makes its `sk_removeObserver` calls, and at the end its own associated array is
released with it. -/
def deallocObserver (s : State Data Value) (o : ObjectID) (calls : List (ObjectID × NSString)) :
    State Data Value :=
  let started := { s with life := Function.update s.life o .deallocating }
  let removed := calls.foldl (fun s call => skRemoveObserver s call.1 o call.2) started
  { removed.modify o (fun object => { object with observers := none }) with
    life := Function.update removed.life o .dead }

structure Registration where
  object : ObjectID
  observer : ObjectID
  key : NSString
  deriving DecidableEq

/-- The state with a record of the registrations accepted so far, removed or not,
which the code does not keep. -/
structure World (Data Value : Type) where
  state : State Data Value
  accepted : List Registration

inductive Event (Value : Type) where
  | add (x observer : ObjectID) (key : NSString) (block : Nat)
  | remove (x observer : ObjectID) (key : NSString)
  | set (x : ObjectID) (sel : Selector) (newValue : Value)
  | dealloc (o : ObjectID) (calls : List (ObjectID × NSString))

/-- Any call on objects that still exist. A call that raises is caught by whoever
made it, and the run goes on from the state it left; behind undefined behaviour and
an endless recursion there is no state. -/
def step (F : Foundation Data Value) (w : World Data Value) :
    Event Value → Option (World Data Value)
  | .add x observer key block =>
    if w.state.life x = .alive ∧ w.state.life observer = .alive then
      match skAddObserver F w.state x observer key block with
      | (s, none) => some ⟨s, ⟨x, observer, key⟩ :: w.accepted⟩
      | (s, some _) => some ⟨s, w.accepted⟩
    else none
  | .remove x observer key =>
    if w.state.life x = .alive ∧ w.state.life observer = .alive then
      some { w with state := skRemoveObserver w.state x observer key }
    else none
  | .set x sel newValue =>
    if w.state.life x = .alive ∧ (sendSetter F w.state x sel newValue).2.all (!·.fatal) then
      some { w with state := (sendSetter F w.state x sel newValue).1 }
    else none
  | .dealloc o calls =>
    if w.state.life o = .alive ∧ ∀ call ∈ calls, w.state.life call.1 = .alive then
      some { w with state := deallocObserver w.state o calls }
    else none

/-- The classes and objects before the first observation. No class has the name
or the methods of a KVO class. -/
structure Program where
  table : ClassTable ClassName Selector Method
  classOf : ObjectID → ClassName
  registered : ∀ x, classOf x ∈ table.names
  unprefixed : ∀ c ∈ table.classes, isKvoName c.name = false
  native : ∀ c ∈ table.classes, ∀ sel method, c.methods.lookup sel = some method →
    ∃ n, method.imp = .original n

def Program.initial (P : Program) (data : ObjectID → Data) : World Data Value :=
  ⟨⟨P.table, fun x => ⟨P.classOf x, none, data x⟩, fun _ => .alive, 0, []⟩, []⟩

@[simp] theorem modify_scheduled (s : State Data Value) (x : ObjectID)
    (f : Object Data → Object Data) : (s.modify x f).scheduled = s.scheduled := rfl

@[simp] theorem modify_self (s : State Data Value) (x : ObjectID)
    (f : Object Data → Object Data) : (s.modify x f).objects x = f (s.objects x) := by
  simp [State.modify]

theorem modify_other (s : State Data Value) {x y : ObjectID} (h : y ≠ x)
    (f : Object Data → Object Data) : (s.modify x f).objects y = s.objects y := by
  simp [State.modify, h]

/-- A change that keeps the class pointer keeps every object's class. -/
theorem modify_isa (s : State Data Value) (x : ObjectID) {f : Object Data → Object Data}
    (h : ∀ o, (f o).isa = o.isa) (y : ObjectID) : (s.modify x f).isa y = s.isa y := by
  unfold State.isa
  by_cases hy : y = x
  · subst y
    rw [modify_self, h]
  · rw [modify_other s hy]

/-- A change that keeps the observers keeps every object's list. -/
theorem modify_infos (s : State Data Value) (x : ObjectID) {f : Object Data → Object Data}
    (h : ∀ o, (f o).observers = o.observers) (y : ObjectID) :
    (s.modify x f).infos y = s.infos y := by
  unfold State.infos
  by_cases hy : y = x
  · subst y
    rw [modify_self, h]
  · rw [modify_other s hy]

theorem addInfo_isa (s : State Data Value) (x o : ObjectID) (key : NSString) (block : Nat)
    (y : ObjectID) : (addInfo s x o key block).isa y = s.isa y := by
  unfold addInfo State.isa
  by_cases hy : y = x
  · subst y
    simp
  · simp [modify_other s hy]

theorem skRemoveObserver_cases (s : State Data Value) (x observer : ObjectID) (key : NSString) :
    skRemoveObserver s x observer key = s ∨
      ∃ id, skRemoveObserver s x observer key = s.modify x (fun o =>
        { o with observers := o.observers.map (·.filter (fun i => i.id ≠ id)) }) := by
  unfold skRemoveObserver
  split
  · exact Or.inl rfl
  · exact Or.inr ⟨_, rfl⟩

/-- A setter call changes at most the data of its receiver and the queue, and what
it schedules comes from the receiver's list. -/
theorem sendSetter_cases (F : Foundation Data Value) (s : State Data Value) (x : ObjectID)
    (sel : Selector) (v : Value) :
    ∃ data calls, (sendSetter F s x sel v).1 =
        { s.modify x (fun o => { o with data := data }) with scheduled := s.scheduled ++ calls } ∧
      ∀ c ∈ calls, c.info ∈ s.infos x := by
  have quiet : ∀ data, s.modify x (fun o => { o with data := data }) =
      { s.modify x (fun o => { o with data := data }) with scheduled := s.scheduled ++ [] } := by
    simp [State.modify]
  have same : s = { s.modify x (fun o => { o with data := (s.objects x).data }) with
      scheduled := s.scheduled ++ [] } := by
    simp [State.modify]
  unfold sendSetter
  split
  · exact ⟨_, [], same, by simp⟩
  · split
    · unfold kvoSetter
      split
      · exact ⟨_, [], same, by simp⟩
      · exact ⟨_, [], same, by simp⟩
      · split
        · exact ⟨_, [], same, by simp⟩
        · dsimp only
          split
          · exact ⟨_, [], quiet _, by simp⟩
          · refine ⟨(msgSendSuper F s x sel v).1, _, rfl, ?_⟩
            intro c hc
            obtain ⟨i, hi, rfl⟩ := List.mem_map.mp hc
            have hinfos := modify_infos s x
              (f := fun o => { o with data := (msgSendSuper F s x sel v).1 }) (fun _ => rfl) x
            rw [hinfos] at hi
            exact (List.mem_filter.mp hi).1
    · exact ⟨_, [], same, by simp⟩
  · exact ⟨_, [], same, by simp⟩
  · exact ⟨_, [], quiet _, by simp⟩

/-- A removal asked for by an observer that has begun to go finds nothing: no weak
reference to it can be read any more. -/
theorem skRemoveObserver_dying {s : State Data Value} {o : ObjectID} (h : s.life o ≠ .alive)
    (x : ObjectID) (key : NSString) : skRemoveObserver s x o key = s := by
  have hnone : (s.infos x).find? (fun i => weakObserver s i = some o ∧ i.key = key) = none := by
    apply List.find?_eq_none.mpr
    intro i _
    simp only [decide_eq_true_eq, not_and]
    intro hw
    unfold weakObserver at hw
    split at hw
    · rename_i halive
      rw [Option.some.inj hw] at halive
      exact absurd halive h
    · cases hw
  unfold skRemoveObserver
  rw [hnone]

/-- So the calls an observer makes from its `dealloc` change nothing. -/
theorem deallocObserver_eq (s : State Data Value) (o : ObjectID)
    (calls : List (ObjectID × NSString)) :
    deallocObserver s o calls =
      { s.modify o (fun object => { object with observers := none }) with
        life := Function.update s.life o .dead } := by
  have hloop : ∀ t : State Data Value, t.life o = .deallocating →
      calls.foldl (fun s call => skRemoveObserver s call.1 o call.2) t = t := by
    intro t ht
    induction calls with
    | nil => rfl
    | cons call calls ih =>
      rw [List.foldl_cons, skRemoveObserver_dying (by simp [ht])]
      exact ih
  unfold deallocObserver
  simp only
  rw [hloop _ (by simp)]
  simp [State.modify]

theorem skRemoveObserver_classes (s : State Data Value) (x o : ObjectID) (key : NSString) :
    (skRemoveObserver s x o key).classes = s.classes ∧
      ∀ y, (skRemoveObserver s x o key).isa y = s.isa y := by
  rcases skRemoveObserver_cases s x o key with he | ⟨id, he⟩
  · rw [he]
    exact ⟨rfl, fun _ => rfl⟩
  · rw [he]
    exact ⟨rfl, modify_isa s x (fun _ => rfl)⟩

/-- What an event does, by kind: an accepted and a refused registration, a removal, a
setter call and the end of an observer. -/
inductive Stepped (F : Foundation Data Value) (w : World Data Value) :
    Event Value → World Data Value → Prop where
  | accepted {x o : ObjectID} {key : NSString} {block : Nat} {sel : Selector} {method : Method}
      (alive : w.state.life o = .alive)
      (found : setterMethod F w.state x key = some (sel, method)) :
      Stepped F w (.add x o key block)
        ⟨addInfo (addSetter (becomeKvo w.state x) x sel method.types) x o key block,
          ⟨x, o, key⟩ :: w.accepted⟩
  | refused {x o : ObjectID} {key : NSString} {block : Nat} :
      Stepped F w (.add x o key block) w
  | removed {x o : ObjectID} {key : NSString} :
      Stepped F w (.remove x o key) { w with state := skRemoveObserver w.state x o key }
  | sent {x : ObjectID} {sel : Selector} {value : Value} :
      Stepped F w (.set x sel value) { w with state := (sendSetter F w.state x sel value).1 }
  | gone {o : ObjectID} {calls : List (ObjectID × NSString)} :
      Stepped F w (.dealloc o calls) { w with state := deallocObserver w.state o calls }

theorem step_stepped {F : Foundation Data Value} {w v : World Data Value} {e : Event Value}
    (h : step F w e = some v) : Stepped F w e v := by
  cases e with
  | add x o key block =>
    simp only [step] at h
    split at h
    · rename_i halive
      cases hm : setterMethod F w.state x key with
      | none =>
        simp only [skAddObserver, hm, Option.some.injEq] at h
        subst v
        exact .refused
      | some found =>
        simp only [skAddObserver, hm, Option.some.injEq] at h
        subst v
        exact .accepted halive.2 hm
    · cases h
  | remove x o key =>
    simp only [step] at h
    split at h
    · cases h
      exact .removed
    · cases h
  | set x sel value =>
    simp only [step] at h
    split at h
    · cases h
      exact .sent
    · cases h
  | dealloc o calls =>
    simp only [step] at h
    split at h
    · cases h
      exact .gone
    · cases h

/-- Only an accepted registration touches the classes. -/
theorem step_classes {F : Foundation Data Value} {w v : World Data Value} {e : Event Value}
    (h : step F w e = some v) :
    (∃ x o key block sel method, setterMethod F w.state x key = some (sel, method) ∧
      v = ⟨addInfo (addSetter (becomeKvo w.state x) x sel method.types) x o key block,
        ⟨x, o, key⟩ :: w.accepted⟩) ∨
    (v.accepted = w.accepted ∧ v.state.classes = w.state.classes ∧
      ∀ y, v.state.isa y = w.state.isa y) := by
  cases step_stepped h with
  | accepted _ found => exact Or.inl ⟨_, _, _, _, _, _, found, rfl⟩
  | refused => exact Or.inr ⟨rfl, rfl, fun _ => rfl⟩
  | removed => exact Or.inr ⟨rfl, skRemoveObserver_classes _ _ _ _⟩
  | @sent x sel value =>
    obtain ⟨data, calls, he, _⟩ := sendSetter_cases F w.state x sel value
    refine Or.inr ⟨rfl, ?_⟩
    rw [he]
    exact ⟨rfl, modify_isa w.state x (f := fun o => { o with data := data }) (fun _ => rfl)⟩
  | @gone o calls =>
    refine Or.inr ⟨rfl, ?_⟩
    rw [deallocObserver_eq]
    exact ⟨rfl, modify_isa w.state o (f := fun object => { object with observers := none })
      (fun _ => rfl)⟩

end BasicDemo.Observing
