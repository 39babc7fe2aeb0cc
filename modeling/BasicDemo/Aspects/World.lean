import BasicDemo.Aspects.Tracker
import BasicDemo.Observing.Names

namespace BasicDemo.Aspects
open Library.Classes
open Observing (NSString text)

abbrev ClassName := NSString

abbrev Selector := NSString

abbrev Object := Nat

/-- The types of the arguments of a method or a block. The first two are the receiver and
the selector, or the block and the info. -/
abbrev Signature := List NSString

/-- What can be hooked: an object, or all objects of a class. -/
inductive Target where
  | object (o : Object)
  | classObject (c : ClassName)
  deriving DecidableEq

/-- Implementations: `_objc_msgForward`, `__ASPECTS_ARE_BEING_CALLED__`, the block that
`aspect_hookedGetClass` installs, and those of the program. -/
inductive Imp where
  | msgForward
  | aspectsAreBeingCalled
  | getClass (statedClass : ClassName)
  | code (n : Nat)
  deriving DecidableEq

/-- An implementation of the program. -/
def Imp.isCode : Imp → Bool
  | .code _ => true
  | _ => false

abbrev Classes := ClassTable ClassName Selector (Method Imp Signature)

structure AspectIdentifier where
  id : Nat
  selector : Selector
  object : Target
  options : Nat
  blockSignature : Signature
  deriving DecidableEq

def positionAfter : Nat := 0

def positionInstead : Nat := 1

def positionBefore : Nat := 2

def position (options : Nat) : Nat := options &&& 0x07

/-- `AspectOptionAutomaticRemoval`. -/
def automaticRemoval (options : Nat) : Bool := options &&& (1 <<< 3) ≠ 0

structure AspectsContainer where
  beforeAspects : List AspectIdentifier
  insteadAspects : List AspectIdentifier
  afterAspects : List AspectIdentifier
  deriving DecidableEq

namespace AspectsContainer

def new : AspectsContainer := ⟨[], [], []⟩

def hasAspects (c : AspectsContainer) : Bool :=
  0 < c.beforeAspects.length || 0 < c.insteadAspects.length || 0 < c.afterAspects.length

/-- The three bits of a position have room for values that are none of the three. -/
def addAspect (c : AspectsContainer) (aspect : AspectIdentifier) (options : Nat) :
    AspectsContainer :=
  if position options = positionBefore then
    { c with beforeAspects := c.beforeAspects ++ [aspect] }
  else if position options = positionInstead then
    { c with insteadAspects := c.insteadAspects ++ [aspect] }
  else if position options = positionAfter then
    { c with afterAspects := c.afterAspects ++ [aspect] }
  else c

def removeAspect (c : AspectsContainer) (aspect : AspectIdentifier) : AspectsContainer × Bool :=
  if aspect ∈ c.beforeAspects then
    ({ c with beforeAspects := c.beforeAspects.erase aspect }, true)
  else if aspect ∈ c.insteadAspects then
    ({ c with insteadAspects := c.insteadAspects.erase aspect }, true)
  else if aspect ∈ c.afterAspects then
    ({ c with afterAspects := c.afterAspects.erase aspect }, true)
  else (c, false)

end AspectsContainer

/-- The errors, with what their descriptions are made of. -/
inductive AspectError where
  | selectorBlacklisted (selectorName : Selector)
  | doesNotRespondToSelector (className : ClassName) (selectorName : Selector)
  | selectorDeallocPosition
  | selectorAlreadyHooked (hooked : HierarchyError ClassName Selector)
  | incompatibleBlockSignature (blockSignature methodSignature : Signature)
  | removeObjectAlreadyDeallocated

def aspectsSubclassSuffix : NSString := text "_Aspects_"

def aspectsMessagePrefix : NSString := text "aspects_"

def aliasForSelector (selector : Selector) : Selector :=
  aspectsMessagePrefix ++ (text "_" ++ selector)

def forwardInvocation : Selector := text "forwardInvocation:"

def aspectsForwardInvocation : Selector := text "__aspects_forwardInvocation:"

def classSelector : Selector := text "class"

def rootClass : ClassName := text "NSObject"

/-- The types "v@:@". -/
def forwardInvocationTypes : Signature := [text "@", text ":", text "@"]

/-- `aspect_isCompatibleBlockSignature`. A block may have fewer arguments than the method,
and of each type the first character is compared. -/
def isCompatibleBlockSignature (blockSignature methodSignature : Signature) : Bool :=
  if methodSignature.length < blockSignature.length then false
  else
    (match blockSignature.drop 1 with
      | blockType :: _ => blockType.head? = (text "@").head?
      | [] => true) &&
    ((methodSignature.drop 2).zip (blockSignature.drop 2)).all (fun types =>
      types.1.head? = types.2.head?)

/-- `stringByReplacingOccurrencesOfString:withString:` with an empty replacement; the first
argument counts what is left to skip of an occurrence. -/
def removingOccurrences (target : NSString) : Nat → NSString → NSString
  | _, [] => []
  | 0, c :: cs =>
    if target.isPrefixOf (c :: cs) then removingOccurrences target (target.length - 1) cs
    else c :: removingOccurrences target 0 cs
  | skip + 1, _ :: cs => removingOccurrences target skip cs

/-- The state of the runtime and of the static variables. `classMethods` says which class
objects respond to which selectors, `classAnswer` what an implementation of `class` in the
program answers for an object of a class, `answersSignature` what a class answers to
`methodSignatureForSelector:` for a selector that it has no method for, and
`forwardingTarget` what an object answers to `forwardingTargetForSelector:`, if it is another
object. A container is an associated object under the alias of its selector. -/
structure World where
  classes : Classes
  classMethods : ClassName → Selector → Bool
  classAnswer : Nat → ClassName → ClassName
  answersSignature : ClassName → Selector → Option Signature
  forwardingTarget : Object → Selector → Option Object
  isa : Object → ClassName
  containers : Target → Selector → Option AspectsContainer
  trackers : Trackers ClassName Selector
  swizzledClasses : Finset ClassName
  tokens : Nat → Option AspectIdentifier
  created : Nat

namespace World

/-- `self.class`, which is not the class of the object where the program says so, as for an
object that is observed. -/
def statedClass (w : World) : Target → ClassName
  | .classObject c => c
  | .object o =>
    match (w.classes.resolve (w.isa o) classSelector).map Method.imp with
    | some (.getClass c) => c
    | some (.code n) => w.classAnswer n (w.isa o)
    | _ => w.isa o

def instancesRespondToSelector (w : World) (c : ClassName) (selector : Selector) : Bool :=
  (w.classes.resolve c selector).isSome

def respondsToSelector (w : World) : Target → Selector → Bool
  | .object o, selector => w.instancesRespondToSelector (w.isa o) selector
  | .classObject c, selector => w.classMethods c selector

/-- `instanceMethodSignatureForSelector:`; nil has no arguments. -/
def instanceMethodSignature (w : World) (c : ClassName) (selector : Selector) : Signature :=
  ((w.classes.resolve c selector).map Method.types).getD []

def disallowedSelectorList : List Selector :=
  [text "retain", text "release", text "autorelease", forwardInvocation]

def isSelectorAllowedAndTrack (w : World) (self : Target) (selector : Selector) (options : Nat) :
    Except AspectError World :=
  if disallowedSelectorList.contains selector then .error (.selectorBlacklisted selector)
  else if selector = text "dealloc" ∧ position options ≠ positionBefore then
    .error .selectorDeallocPosition
  else if !w.respondsToSelector self selector &&
      !w.instancesRespondToSelector (w.statedClass self) selector then
    .error (.doesNotRespondToSelector (w.statedClass self) selector)
  else
    match self with
    | .classObject klass =>
      match w.trackers.allowedAndTrack w.classes klass selector with
      | .ok trackers => .ok { w with trackers := trackers }
      | .error hooked => .error (.selectorAlreadyHooked hooked)
    | .object _ => .ok w

def setContainer (w : World) (self : Target) (aliasSelector : Selector)
    (container : Option AspectsContainer) : World :=
  { w with
    containers := Function.update w.containers self
      (Function.update (w.containers self) aliasSelector container) }

/-- `aspect_getContainerForObject`, which creates a missing container. -/
def getContainerForObject (w : World) (self : Target) (selector : Selector) :
    World × AspectsContainer :=
  match w.containers self (aliasForSelector selector) with
  | some container => (w, container)
  | none => (w.setContainer self (aliasForSelector selector) (some .new), .new)

/-- `aspect_getContainerForClass`: the container of the first class that has aspects, or
else the one of the last class. -/
def getContainerForClass (w : World) (aliasSelector : Selector) :
    List ClassName → Option AspectsContainer → Option AspectsContainer
  | [], classContainer => classContainer
  | klass :: rest, _ =>
    match w.containers (.classObject klass) aliasSelector with
    | some container =>
      if container.hasAspects then some container
      else getContainerForClass w aliasSelector rest (some container)
    | none => getContainerForClass w aliasSelector rest none

/-- `class_replaceMethod` answers only an implementation of the class itself. -/
def swizzleForwardInvocation (t : Classes) (klass : ClassName) : Classes :=
  let replaced := t.replaceMethod klass forwardInvocation
    ⟨.aspectsAreBeingCalled, forwardInvocationTypes⟩
  match t.own klass forwardInvocation with
  | some original =>
    replaced.addMethod klass aspectsForwardInvocation ⟨original.imp, forwardInvocationTypes⟩
  | none => replaced

def undoSwizzleForwardInvocation (t : Classes) (klass : ClassName) : Classes :=
  match (t.resolve klass aspectsForwardInvocation).or (t.resolve rootClass forwardInvocation) with
  | some original => t.replaceMethod klass forwardInvocation ⟨original.imp, forwardInvocationTypes⟩
  | none => t

/-- `aspect_hookedGetClass`, for the instances. -/
def hookedGetClass (t : Classes) (c statedClass : ClassName) : Classes :=
  t.replaceMethod c classSelector
    ⟨.getClass statedClass, ((t.resolve c classSelector).map Method.types).getD []⟩

def swizzleClassInPlace (w : World) (klass : ClassName) : World :=
  if klass ∈ w.swizzledClasses then w
  else { w with
    classes := swizzleForwardInvocation w.classes klass
    swizzledClasses := insert klass w.swizzledClasses }

def undoSwizzleClassInPlace (w : World) (klass : ClassName) : World :=
  if klass ∈ w.swizzledClasses then { w with
    classes := undoSwizzleForwardInvocation w.classes klass
    swizzledClasses := w.swizzledClasses.erase klass }
  else w

def setClass (w : World) (o : Object) (c : ClassName) : World :=
  { w with isa := Function.update w.isa o c }

/-- The default case of `aspect_hookClass`. -/
def hookWithSubclass (w : World) (o : Object) (baseClass : ClassName) :
    Option (World × ClassName) :=
  let subclassName := baseClass ++ aspectsSubclassSuffix
  if w.classes.names.contains subclassName then some (w.setClass o subclassName, subclassName)
  else
    match w.classes.addClass subclassName baseClass with
    | none => none
    | some t =>
      let t := hookedGetClass (swizzleForwardInvocation t subclassName) subclassName baseClass
      some ({ w with classes := t }.setClass o subclassName, subclassName)

/-- `aspect_hookClass`. There is no result where the class pair is not allocated, and none for
a class object whose name has the suffix, where a metaclass would be hooked. -/
def hookClass (w : World) : Target → Option (World × ClassName)
  | .classObject klass =>
    if aspectsSubclassSuffix.isSuffixOf klass then none
    else some (w.swizzleClassInPlace klass, klass)
  | .object o =>
    if aspectsSubclassSuffix.isSuffixOf (w.isa o) then some (w, w.isa o)
    else if w.statedClass (.object o) ≠ w.isa o then
      some (w.swizzleClassInPlace (w.isa o), w.isa o)
    else w.hookWithSubclass o (w.isa o)

/-- What `aspect_prepareClassAndHookSelector` does to the methods of the class. -/
def installHook (t : Classes) (klass : ClassName) (selector : Selector) : Classes :=
  match t.resolve klass selector with
  | none => t
  | some targetMethod =>
    if targetMethod.imp = .msgForward then t
    else
      let aliased :=
        if (t.resolve klass (aliasForSelector selector)).isSome then t
        else t.addMethod klass (aliasForSelector selector) targetMethod
      aliased.replaceMethod klass selector ⟨.msgForward, targetMethod.types⟩

def prepareClassAndHookSelector (w : World) (self : Target) (selector : Selector) : Option World :=
  match w.hookClass self with
  | none => none
  | some (w, klass) => some { w with classes := installHook w.classes klass selector }

/-- `aspect_add`. A request that fails may still have been tracked, and may have left an
empty container. -/
def add (w : World) (self : Target) (selector : Selector) (options : Nat)
    (blockSignature : Signature) : Option (World × Except AspectError AspectIdentifier) :=
  match w.isSelectorAllowedAndTrack self selector options with
  | .error e => some (w, .error e)
  | .ok w =>
    let (w, container) := w.getContainerForObject self selector
    let methodSignature := w.instanceMethodSignature (w.statedClass self) selector
    if isCompatibleBlockSignature blockSignature methodSignature then
      let identifier := ⟨w.created, selector, self, options, blockSignature⟩
      let w := w.setContainer self (aliasForSelector selector)
        (some (container.addAspect identifier options))
      let w := { w with
        tokens := Function.update w.tokens identifier.id (some identifier)
        created := w.created + 1 }
      (w.prepareClassAndHookSelector self selector).map (fun w => (w, .ok identifier))
    else some (w, .error (.incompatibleBlockSignature blockSignature methodSignature))

/-- The class that `aspect_cleanupHookedClassAndSelector` works on. -/
def hookedClass (w : World) : Target → ClassName
  | .object o => w.isa o
  | .classObject c => c

/-- The method is given its implementation back, whether or not aspects remain. There is no
result where the original implementation is not found. -/
def restoreMethod (t : Classes) (klass : ClassName) (selector : Selector) : Option Classes :=
  match t.resolve klass selector with
  | none => some t
  | some targetMethod =>
    if targetMethod.imp = .msgForward then
      match t.resolve klass (aliasForSelector selector) with
      | some originalMethod =>
        some (t.replaceMethod klass selector ⟨originalMethod.imp, targetMethod.types⟩)
      | none => none
    else some t

/-- How the class is given back when no aspect of the selector is left. -/
def restoreClass (w : World) : Target → Option World
  | .classObject klass =>
    if aspectsSubclassSuffix.isSuffixOf klass then none
    else some (w.undoSwizzleClassInPlace klass)
  | .object o =>
    if aspectsSubclassSuffix.isSuffixOf (w.isa o) then
      let originalClass := removingOccurrences aspectsSubclassSuffix 0 (w.isa o)
      if w.classes.names.contains originalClass then some (w.setClass o originalClass) else none
    else if w.statedClass (.object o) ≠ w.isa o then some (w.undoSwizzleClassInPlace (w.isa o))
    else some w

def deregisterTrackedSelector (w : World) (self : Target) (selector : Selector) : World :=
  match self with
  | .classObject klass =>
    { w with trackers := w.trackers.deregisterTrackedSelector w.classes klass selector }
  | .object _ => w

def cleanupHookedClassAndSelector (w : World) (self : Target) (selector : Selector) :
    Option World :=
  match restoreMethod w.classes (w.hookedClass self) selector with
  | none => none
  | some t =>
    let w := { w with classes := t }.deregisterTrackedSelector self selector
    let (w, container) := w.getContainerForObject self selector
    if container.hasAspects then some w
    else (w.setContainer self (aliasForSelector selector) none).restoreClass self

/-- `aspect_remove`; a token that was removed before has no object any more. -/
def remove (w : World) (token : Nat) : Option (World × Except AspectError Bool) :=
  match w.tokens token with
  | none => some (w, .error .removeObjectAlreadyDeallocated)
  | some aspect =>
    let (w, container) := w.getContainerForObject aspect.object aspect.selector
    let (container, success) := container.removeAspect aspect
    let w := w.setContainer aspect.object (aliasForSelector aspect.selector) (some container)
    (w.cleanupHookedClassAndSelector aspect.object aspect.selector).map (fun w =>
      ({ w with tokens := Function.update w.tokens token none }, .ok success))

end World

/-- What happens when a message is sent. -/
inductive Event (V : Type) where
  | block (id : Nat) (arguments : List V)
  | invoked (imp : Imp) (selector : Selector) (arguments : List V)
  | resent (target : Object) (selector : Selector) (arguments : List V)
  | doesNotRecognizeSelector (selector : Selector)
  deriving DecidableEq

variable {V : Type}

/-- `invokeWithInfo:`. The block gets as many arguments as it has room for. -/
def invokeWithInfo (signature : Signature) (arguments : List V) (aspect : AspectIdentifier) :
    List (Event V) :=
  if signature.length < aspect.blockSignature.length then []
  else [.block aspect.id (arguments.take (aspect.blockSignature.length - 2))]

namespace World

/-- The original method, called under its alias if some class has it; whether it was called is
the second part of the result. -/
def invokeOriginal (w : World) (self : Object) (aliasSelector : Selector) (arguments : List V) :
    List (Event V) × Bool :=
  if (w.classes.chain (w.isa self)).any
      (fun klass => w.instancesRespondToSelector klass aliasSelector) then
    match w.classes.resolve (w.isa self) aliasSelector with
    | some original => ([.invoked original.imp aliasSelector arguments], true)
    | none => ([], true)
  else ([], false)

/-- The end of `__ASPECTS_ARE_BEING_CALLED__` where no class has the alias. -/
def originalForwardInvocation (w : World) (self : Object) (selector : Selector)
    (arguments : List V) : List (Event V) :=
  match w.classes.resolve (w.isa self) aspectsForwardInvocation with
  | some original => [.invoked original.imp selector arguments]
  | none => [.doesNotRecognizeSelector selector]

/-- The aspects of an invocation, of the class and of the object. -/
def aspectsOf (list : AspectsContainer → List AspectIdentifier)
    (classContainer objectContainer : Option AspectsContainer) : List AspectIdentifier :=
  (classContainer.map list).getD [] ++ (objectContainer.map list).getD []

/-- `__ASPECTS_ARE_BEING_CALLED__`: what is called, and the aspects that were called. -/
def aspectsAreBeingCalled (w : World) (self : Object) (signature : Signature)
    (selector : Selector) (arguments : List V) : List (Event V) × List AspectIdentifier :=
  let aliasSelector := aliasForSelector selector
  let objectContainer := w.containers (.object self) aliasSelector
  let classContainer := w.getContainerForClass aliasSelector (w.classes.chain (w.isa self)) none
  let before := aspectsOf AspectsContainer.beforeAspects classContainer objectContainer
  let insteads := aspectsOf AspectsContainer.insteadAspects classContainer objectContainer
  let after := aspectsOf AspectsContainer.afterAspects classContainer objectContainer
  let (original, respondsToAlias) :=
    if insteads = [] then w.invokeOriginal self aliasSelector arguments
    else (insteads.flatMap (invokeWithInfo signature arguments), true)
  (before.flatMap (invokeWithInfo signature arguments) ++ original ++
      after.flatMap (invokeWithInfo signature arguments) ++
      (if respondsToAlias then [] else w.originalForwardInvocation self selector arguments),
    before ++ insteads ++ after)

/-- `[aspectsToRemove makeObjectsPerformSelector:@selector(remove)]`. -/
def removeAll (w : World) : List AspectIdentifier → Option World
  | [] => some w
  | aspect :: rest =>
    match w.remove aspect.id with
    | some (w, _) => removeAll w rest
    | none => none

/-- What has a signature goes through `forwardInvocation:`. -/
def forwardWithInvocation (w : World) (self : Object) (signature : Signature)
    (selector : Selector) (arguments : List V) : Option (World × List (Event V)) :=
  match w.classes.resolve (w.isa self) forwardInvocation with
  | none => some (w, [.doesNotRecognizeSelector selector])
  | some method =>
    if method.imp = .aspectsAreBeingCalled then
      let (events, called) := w.aspectsAreBeingCalled self signature selector arguments
      (w.removeAll (called.filter (fun aspect => automaticRemoval aspect.options))).map
        (fun w => (w, events))
    else some (w, [.invoked method.imp selector arguments])

/-- A method that is forwarded or missing. The object is asked for another one to send the
message to first. -/
def forward (w : World) (self : Object) (signature : Option Signature) (selector : Selector)
    (arguments : List V) : Option (World × List (Event V)) :=
  match w.forwardingTarget self selector with
  | some target => some (w, [.resent target selector arguments])
  | none =>
    match signature with
    | some signature => w.forwardWithInvocation self signature selector arguments
    | none => some (w, [.doesNotRecognizeSelector selector])

def send (w : World) (self : Object) (selector : Selector) (arguments : List V) :
    Option (World × List (Event V)) :=
  match w.classes.resolve (w.isa self) selector with
  | some method =>
    if method.imp = .msgForward then w.forward self (some method.types) selector arguments
    else some (w, [.invoked method.imp selector arguments])
  | none =>
    w.forward self (w.answersSignature (w.statedClass (.object self)) selector) selector arguments

end World

end BasicDemo.Aspects
