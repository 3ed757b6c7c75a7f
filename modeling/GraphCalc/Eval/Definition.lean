import GraphCalc.Eval.Builtin
import GraphCalc.Expr.Parse

/-! # User functions

A definition `name(parameter) = body` makes a function of one argument callable. A table holds one
definition for each name, in the order in which the names were first defined; a later definition of
a name replaces the earlier one in its place. The key under which a table has a definition is the name
of the definition. A user function comes before a built-in function of the same name. Main notions:

* `Definition` and `FunctionTable`;
* `FunctionTable.callable`: the names that are heads of calls;
* `FunctionTable.read`, `FunctionTable.readWithin`: the tree of a text, read with these names;
* `FunctionTable.body`: the tree of a definition's body.
-/

namespace GraphCalc
set_option autoImplicit false

/-- A function of one parameter, with its body as text. -/
structure Definition where
  name : String
  parameter : String
  body : String
  deriving DecidableEq, Repr, Inhabited

/-- The user functions, one for each name. -/
structure FunctionTable where
  entries : List Definition
  distinct : (entries.map Definition.name).Nodup
  deriving DecidableEq, Repr

namespace FunctionTable

def empty : FunctionTable := ⟨[], List.nodup_nil⟩

instance : Inhabited FunctionTable := ⟨empty⟩

def find? (table : FunctionTable) (name : String) : Option Definition :=
  table.entries.find? (·.name == name)

def defines (table : FunctionTable) (name : String) : Bool := (table.find? name).isSome

/-- A definition in the place of the one of the same name. -/
def replacedBy (d : Definition) (entries : List Definition) : List Definition :=
  entries.map fun e => if e.name == d.name then d else e

theorem names_replacedBy (d : Definition) (entries : List Definition) :
    (replacedBy d entries).map Definition.name = entries.map Definition.name := by
  rw [replacedBy, List.map_map]
  refine List.map_congr_left fun e _ => ?_
  by_cases h : e.name = d.name <;> simp [h]

theorem not_mem_names {table : FunctionTable} {name : String} (h : ¬ table.defines name = true) :
    name ∉ table.entries.map Definition.name := by
  simp [defines, find?] at h
  simpa using h

theorem distinct_append {table : FunctionTable} {d : Definition} (h : ¬ table.defines d.name = true) :
    ((table.entries ++ [d]).map Definition.name).Nodup := by
  rw [List.map_append]
  refine List.nodup_append.mpr ⟨table.distinct, by simp, ?_⟩
  rintro name hname _ hd rfl
  rw [List.map_singleton, List.mem_singleton] at hd
  exact not_mem_names h (hd ▸ hname)

/-- Adds a definition, or replaces the one of the same name. -/
def insert (table : FunctionTable) (d : Definition) : FunctionTable :=
  if h : table.defines d.name then
    ⟨replacedBy d table.entries, (names_replacedBy d table.entries).symm ▸ table.distinct⟩
  else ⟨table.entries ++ [d], distinct_append h⟩

def ofList (definitions : List Definition) : FunctionTable := definitions.foldl insert empty

/-- The names in the order of their first definition. -/
def names (table : FunctionTable) : List String := table.entries.map (·.name)

/-- Whether a name is the head of a call when an opening bracket follows. -/
def callable (table : FunctionTable) (name : String) : Bool := isReserved name || table.defines name

/-- The tree of a text read with the names of the table. -/
def read (table : FunctionTable) (text : String) : Except ParseError Expr :=
  Expr.read table.callable text

/-- The same in the room that is left, if that is limited. -/
def readWithin (table : FunctionTable) (room : Room) (text : String) : Except ParseError Expr :=
  Expr.readWithin (room.getD (Expr.roomFor text)) table.callable text

def body (table : FunctionTable) (d : Definition) : Except ParseError Expr := table.read d.body

end FunctionTable
end GraphCalc
