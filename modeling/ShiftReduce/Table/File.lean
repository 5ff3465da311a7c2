/-
Tables as data that can be stored.

A stored table gives every state and every action by name, so it does not
depend on how the states are numbered, and it can be read by people.
Reading goes over the states twice: first all names are entered, so that a
shift may refer to a state further down, and then the actions are read.
-/
import ShiftReduce.Table.Name

namespace ShiftReduce

/-- A state with its actions, all by name. -/
structure StoredState where
  name : String
  actions : OrderedMap Symbol String
deriving DecidableEq

/-- A table with its states and actions by name. -/
structure StoredTable where
  startSymbol : Symbol
  states : List StoredState
deriving DecidableEq

namespace StoredTable

/-- The stored form of a table. -/
def ofTable (t : Table) : StoredTable :=
  { startSymbol := t.startSymbol
    states := t.states.entries.map fun s =>
      { name := s.1.toText t.startSymbol
        actions := s.2.mapValues t.actionText } }

/-- Enter the names of states behind those in `keys`. -/
def enterStates (startSymbol : Symbol) (keys : OrderedSet StateKey) :
    List StoredState → Except TableError (OrderedSet StateKey)
  | [] => .ok keys
  | state :: rest =>
    match StateKey.ofText? startSymbol state.name with
    | none => .error (.invalidStateName state.name)
    | some key =>
      if key ∈ keys then .error (.duplicateState state.name)
      else enterStates startSymbol (keys.insert key) rest

/-- Read the actions of a state. -/
def readCells (startSymbol : Symbol) (keys : List StateKey) :
    List (Symbol × String) → Except TableError (List (Symbol × Action Nat))
  | [] => .ok []
  | (symbol, text) :: rest =>
    match Action.ofText? startSymbol keys text with
    | .error e => .error e
    | .ok action =>
        (readCells startSymbol keys rest).map ((symbol, action) :: ·)

/-- Read the actions of several states. -/
def readRows (startSymbol : Symbol) (keys : List StateKey) :
    List StoredState → Except TableError (List TableRow)
  | [] => .ok []
  | state :: rest =>
    match readCells startSymbol keys state.actions.entries with
    | .error e => .error e
    | .ok cells =>
        (readRows startSymbol keys rest).map (OrderedMap.ofList cells :: ·)

/-- The table that a stored form describes. -/
def toTable? (stored : StoredTable) : Except TableError Table :=
  match enterStates stored.startSymbol OrderedSet.empty stored.states with
  | .error e => .error e
  | .ok keys =>
    if keys.elements.head? ≠ some .start then .error .missingStart
    else match readRows stored.startSymbol keys.elements stored.states with
      | .error e => .error e
      | .ok rows => .ok ⟨stored.startSymbol, OrderedMap.zip keys rows⟩

end StoredTable

end ShiftReduce
