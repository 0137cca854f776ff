import Wireform.Value

/-!
The tree of values that a record was read from. An object keeps its children in the order in which
their names first came; a later child of the same name takes the place of the earlier one.
-/

namespace Wireform

mutual

inductive Node where
  | object (children : Children)
  | value (content : Value)
  deriving DecidableEq

inductive Children where
  | nil
  | cons (name : String) (node : Node) (rest : Children)
  deriving DecidableEq

end

namespace Children

def toList : Children → List (String × Node)
  | nil => []
  | cons name node rest => (name, node) :: rest.toList

def names (children : Children) : List String :=
  children.toList.map Prod.fst

def size (children : Children) : Nat :=
  children.toList.length

def isEmpty (children : Children) : Bool :=
  children.toList.isEmpty

def get? (wanted : String) : Children → Option Node
  | nil => none
  | cons name node rest => if name = wanted then some node else rest.get? wanted

/-- Puts a node under a name: in the place of the one there, or else at the end. -/
def insert (wanted : String) (given : Node) : Children → Children
  | nil => cons wanted given nil
  | cons name node rest =>
    if name = wanted then cons name given rest else cons name node (rest.insert wanted given)

theorem get?_insert (name wanted : String) (node : Node) (children : Children) :
    (children.insert name node).get? wanted =
      if name = wanted then some node else children.get? wanted := by
  match children with
  | nil => simp [insert, get?]
  | cons first held rest =>
    unfold insert
    split
    next same => subst same; by_cases h : first = wanted <;> simp [get?, h]
    next different =>
      simp only [get?, get?_insert name wanted node rest]
      by_cases h : name = wanted
      · subst h; simp [different]
      · simp [h]

end Children

namespace Node

def empty : Node :=
  object .nil

def object? : Node → Option Children
  | object children => some children
  | value _ => none

def value? : Node → Option Value
  | object _ => none
  | value content => some content

/-- The child of that name; a value has none. -/
def child? (node : Node) (name : String) : Option Node :=
  node.object?.bind (Children.get? name)

/-- The names that a dotted path goes through. Nothing between two dots is no name. -/
def pathNames (path : List Char) : List String :=
  let groups := path.foldr
    (fun c groups =>
      if c = '.' then [] :: groups
      else
        match groups with
        | [] => [[c]]
        | group :: rest => (c :: group) :: rest)
    [[]]
  (groups.filter (!·.isEmpty)).map String.ofList

def at? (node : Node) (path : String) : Option Node :=
  (pathNames path.toList).foldlM child? node

end Node

mutual

/-- What follows a name in the dump of its object, which stands at nesting `depth`. -/
def Node.dumpUnder (depth : Nat) : Node → String
  | .object children => "\n" ++ children.dump (depth + 1)
  | .value content => " " ++ content.display ++ "\n"

/-- A line for each node below, each level two blanks further in. -/
def Children.dump (depth : Nat) : Children → String
  | .nil => ""
  | .cons name node rest =>
    String.ofList (List.replicate (2 * depth) ' ') ++ name ++ ":" ++ node.dumpUnder depth ++
      rest.dump depth

end

def Node.display : Node → String
  | .object children => children.dump 0
  | .value content => content.display

mutual

def Node.json : Node → String
  | .object children => Text.Json.object children.jsonMembers
  | .value content => content.json

def Children.jsonMembers : Children → List (String × String)
  | .nil => []
  | .cons name node rest => (name, node.json) :: rest.jsonMembers

end

end Wireform
