import Mathlib.Data.List.Basic

namespace BasicDemo.Observing

/-- One UTF-16 unit of an `NSString`. -/
abbrev Unichar := UInt16

/-- Strings are compared unit by unit. -/
abbrev NSString := List Unichar

/-- A string literal of the source. -/
def text (s : String) : NSString := s.toList.map (fun c => c.toNat.toUInt16)

/-- `uppercaseString` and `lowercaseString` of a string of one unit. The result may
be longer than one unit, but upper-casing never erases a character. -/
structure CaseMapping where
  upper : Unichar → NSString
  lower : Unichar → NSString
  upper_ne_nil : ∀ c, upper c ≠ []

/-- The mapping on the ASCII letters, with every other unit left as it is. -/
def asciiCases : CaseMapping where
  upper c := if 97 ≤ c ∧ c ≤ 122 then [c - 32] else [c]
  lower c := if 65 ≤ c ∧ c ≤ 90 then [c + 32] else [c]
  upper_ne_nil c := by split <;> simp

/-- How a call can fail. `raised` is an exception of code compiled elsewhere, and
`undefined` a call through a function pointer of another type. -/
inductive Exception where
  | invalidArgument (reason : NSString)
  | range
  | unknownKey (key : NSString)
  | unrecognizedSelector (sel : NSString)
  | raised (n : Nat)
  | endlessRecursion
  | undefined
  deriving DecidableEq

/-- Nobody can catch these two. -/
def Exception.fatal : Exception → Bool
  | .endlessRecursion | .undefined => true
  | _ => false

/-- `setterForGetter`; nil for an empty key. -/
def setterForGetter (m : CaseMapping) : NSString → Option NSString
  | [] => none
  | c :: remainingLetters => some (text "set" ++ m.upper c ++ remainingLetters ++ text ":")

/-- `getterForSetter`; nil for a string that is not of the form `set...:`. Taking the
first letter of an empty key raises. -/
def getterForSetter (m : CaseMapping) (setter : NSString) : Except Exception (Option NSString) :=
  if setter.length = 0 || !(text "set").isPrefixOf setter || !(text ":").isSuffixOf setter then
    .ok none
  else
    match (setter.drop 3).take (setter.length - 4) with
    | [] => .error .range
    | c :: rest => .ok (some (m.lower c ++ rest))

/-- What becomes of a first letter that is upper-cased into a setter name and
lower-cased back. -/
def recased (m : CaseMapping) (c : Unichar) : NSString :=
  match m.upper c with
  | [] => []
  | u :: us => m.lower u ++ us

/-- The key's first letter survives the way through the setter name. -/
def Stable (m : CaseMapping) : NSString → Prop
  | [] => False
  | c :: _ => recased m c = [c]

theorem text_set : text "set" = [115, 101, 116] := by decide

theorem text_colon : text ":" = [58] := by decide

theorem getter_of_setter_name (m : CaseMapping) (u : Unichar) (us : NSString) :
    getterForSetter m (text "set" ++ (u :: us) ++ text ":") = .ok (some (m.lower u ++ us)) := by
  have hp : (text "set").isPrefixOf (text "set" ++ (u :: us) ++ text ":") = true := by
    simp [text_set, List.isPrefixOf]
  have hs : (text ":").isSuffixOf (text "set" ++ (u :: us) ++ text ":") = true := by
    simp [text_colon, List.isSuffixOf, List.isPrefixOf]
  have hkey : ((text "set" ++ (u :: us) ++ text ":").drop 3).take
      ((text "set" ++ (u :: us) ++ text ":").length - 4) = u :: us := by
    simp [text_set, text_colon]
  simp only [getterForSetter, hp, hs, hkey]
  simp

/-- The way back from a key's setter name recases the first letter and keeps the rest. -/
theorem getter_of_setter (m : CaseMapping) (c : Unichar) (rest setter : NSString)
    (h : setterForGetter m (c :: rest) = some setter) :
    getterForSetter m setter = .ok (some (recased m c ++ rest)) := by
  cases hu : m.upper c with
  | nil => exact absurd hu (m.upper_ne_nil c)
  | cons u us =>
    have he : setter = text "set" ++ (u :: (us ++ rest)) ++ text ":" := by
      simpa [setterForGetter, hu] using h.symm
    rw [he, getter_of_setter_name]
    simp [recased, hu]

theorem getter_of_setter_iff (m : CaseMapping) (k setter : NSString)
    (h : setterForGetter m k = some setter) :
    getterForSetter m setter = .ok (some k) ↔ Stable m k := by
  cases k with
  | nil => cases h
  | cons c rest =>
    rw [getter_of_setter m c rest setter h]
    simp only [Except.ok.injEq, Option.some.injEq, Stable]
    constructor
    · intro he
      exact List.append_cancel_right (he.trans (List.singleton_append ..).symm)
    · intro he
      rw [he, List.singleton_append]

end BasicDemo.Observing
