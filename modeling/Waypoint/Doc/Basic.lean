/-!
# Documents

A `Doc` is a tree of values with ordered members: what paths are applied to. Objects keep the order
in which their keys were inserted, so two documents that differ only in key order are different
`Doc`s; `Doc.agrees` is the comparison that ignores it.
-/

namespace Waypoint

/-- A document. Integers range over the signed and unsigned 64-bit numbers together; a float is
only ever carried around, so it is held as the text it is written with. -/
inductive Doc where
  | null
  | bool (value : Bool)
  | int (value : Int)
  | float (text : String)
  | str (text : String)
  | arr (items : List Doc)
  | obj (members : List (String × Doc))
  deriving Inhabited

/-- The six kinds of documents, as error messages tell them apart. -/
inductive Kind where
  | null
  | boolean
  | number
  | string
  | array
  | object
  deriving DecidableEq, Inhabited, Repr

def Kind.name : Kind → String
  | .null => "null"
  | .boolean => "boolean"
  | .number => "number"
  | .string => "string"
  | .array => "array"
  | .object => "object"

namespace Doc

/-- The kind of a document: integers and floats are both numbers. -/
def kind : Doc → Kind
  | null => .null
  | bool _ => .boolean
  | int _ => .number
  | float _ => .number
  | str _ => .string
  | arr _ => .array
  | obj _ => .object

/-! ## Integers -/

/-- Reduction to a signed 64-bit number: the representative of `n` modulo `2 ^ 64` from
`-2 ^ 63` up to `2 ^ 63 - 1`. -/
def wrap (n : Int) : Int :=
  n.bmod UInt64.size

/-- The integer of a document that is one and fits a signed 64-bit number, from `-2 ^ 63` up to
`2 ^ 63 - 1`. Floats give nothing, also those without a fraction. -/
def int? : Doc → Option Int
  | int n => if -0x8000000000000000 ≤ n ∧ n < 0x8000000000000000 then some n else none
  | _ => none

/-- The integer of a document, where everything that is no signed 64-bit integer counts as 0. -/
def toInt (doc : Doc) : Int :=
  doc.int?.getD 0

/-- The text of a string, where everything else counts as empty. -/
def toText : Doc → String
  | str text => text
  | _ => ""

/-! ## Members of an object -/

/-- The member under a key. -/
def member? (key : String) : List (String × Doc) → Option Doc
  | [] => none
  | (k, v) :: rest => if k = key then some v else member? key rest

/-- The member under a key, where a missing one reads as null. -/
def member (key : String) (members : List (String × Doc)) : Doc :=
  (member? key members).getD null

/-- Writes a member: an existing key keeps its position, a new key goes to the end. -/
def setMember (key : String) (value : Doc) : List (String × Doc) → List (String × Doc)
  | [] => [(key, value)]
  | (k, v) :: rest => if k = key then (k, value) :: rest else (k, v) :: setMember key value rest

@[simp] theorem member?_setMember_self (key : String) (value : Doc)
    (members : List (String × Doc)) :
    member? key (setMember key value members) = some value := by
  induction members with
  | nil => simp [setMember, member?]
  | cons first rest ih => by_cases h : first.1 = key <;> simp [setMember, member?, h, ih]

theorem member?_setMember_of_ne {key other : String} (ne : other ≠ key) (value : Doc)
    (members : List (String × Doc)) :
    member? other (setMember key value members) = member? other members := by
  induction members with
  | nil => simp [setMember, member?, ne.symm]
  | cons first rest ih =>
    by_cases h : first.1 = key
    · simp [setMember, member?, h, ne.symm]
    · simp [setMember, member?, h, ih]

theorem member?_eq_none {key : String} {members : List (String × Doc)} :
    member? key members = none ↔ key ∉ members.map Prod.fst := by
  induction members with
  | nil => simp [member?]
  | cons first rest ih =>
    by_cases h : first.1 = key
    · simp [member?, h]
    · have ne : key ≠ first.1 := fun eq => h eq.symm
      simp only [member?, h, if_false, ih, List.map_cons, List.mem_cons, ne, false_or]

/-- Writing what is there changes nothing. -/
theorem setMember_self {key : String} {value : Doc} {members : List (String × Doc)}
    (found : member? key members = some value) : setMember key value members = members := by
  induction members with
  | nil => cases found
  | cons first rest ih =>
    obtain ⟨name, old⟩ := first
    by_cases same : name = key
    · rw [member?, if_pos same] at found
      rw [setMember, if_pos same, Option.some.inj found]
    · rw [member?, if_neg same] at found
      rw [setMember, if_neg same, ih found]

/-- What is written last stays. -/
@[simp] theorem setMember_setMember_self (key : String) (first second : Doc)
    (members : List (String × Doc)) :
    setMember key second (setMember key first members) = setMember key second members := by
  induction members with
  | nil => simp [setMember]
  | cons entry rest ih => by_cases h : entry.1 = key <;> simp [setMember, h, ih]

/-- A new key goes to the end. -/
theorem setMember_of_notMem {key : String} {members : List (String × Doc)}
    (absent : key ∉ members.map Prod.fst) (value : Doc) :
    setMember key value members = members ++ [(key, value)] := by
  induction members with
  | nil => rfl
  | cons entry rest ih =>
    have apart : entry.1 ≠ key := fun same => absent (same ▸ List.mem_cons_self)
    have later : key ∉ rest.map Prod.fst := fun member => absent (List.mem_cons_of_mem _ member)
    rw [setMember, if_neg apart, ih later, List.cons_append]

/-- Members under different keys may be written in either order, unless both keys are new. -/
theorem setMember_comm {key other : String} (ne : key ≠ other) (value value' : Doc)
    {members : List (String × Doc)}
    (present : key ∈ members.map Prod.fst ∨ other ∈ members.map Prod.fst) :
    setMember other value' (setMember key value members) =
      setMember key value (setMember other value' members) := by
  induction members with
  | nil => cases present <;> contradiction
  | cons entry rest ih =>
    by_cases first : entry.1 = key
    · simp [setMember, first, ne]
    · by_cases second : entry.1 = other
      · simp [setMember, second, ne.symm]
      · have later : key ∈ rest.map Prod.fst ∨ other ∈ rest.map Prod.fst := by
          refine present.imp (fun member => ?_) fun member => ?_
          · exact (List.mem_cons.mp member).resolve_left (Ne.symm first)
          · exact (List.mem_cons.mp member).resolve_left (Ne.symm second)
        simp [setMember, first, second, ih later]

/-- The keys keep their order; only a new one is appended. -/
theorem keys_setMember (key : String) (value : Doc) (members : List (String × Doc)) :
    (setMember key value members).map Prod.fst =
      if key ∈ members.map Prod.fst then members.map Prod.fst
      else members.map Prod.fst ++ [key] := by
  induction members with
  | nil => rfl
  | cons first rest ih =>
    by_cases h : first.1 = key
    · simp [setMember, h]
    · have ne : key ≠ first.1 := fun eq => h eq.symm
      simp only [setMember, h, if_false, List.map_cons, ih, List.mem_cons, ne, false_or]
      split <;> rfl

/-! ## Comparison without key order -/

mutual

/-- Equality that ignores the order of object keys. -/
def agrees : Doc → Doc → Bool
  | null, null => true
  | bool a, bool b => a == b
  | int a, int b => a == b
  | float a, float b => a == b
  | str a, str b => a == b
  | arr xs, arr ys => itemsAgree xs ys
  | obj ms, obj ns => ms.length == ns.length && membersAgree ms ns
  | _, _ => false

/-- Arrays agree when they have the same length and agree item by item. -/
def itemsAgree : List Doc → List Doc → Bool
  | [], [] => true
  | x :: xs, y :: ys => agrees x y && itemsAgree xs ys
  | _, _ => false

/-- Every member on the left agrees with the one under the same key on the right. -/
def membersAgree : List (String × Doc) → List (String × Doc) → Bool
  | [], _ => true
  | (k, v) :: rest, ns =>
    (match member? k ns with
      | some w => agrees v w
      | none => false) && membersAgree rest ns

end

end Doc

end Waypoint
