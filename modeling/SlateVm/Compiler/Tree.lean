import Mathlib.Data.List.Basic
import Mathlib.Tactic.Common

/-! The syntax trees that are compiled, as macro expansion leaves them: `macroExpand` answers such
a tree itself. Blocks are objects with an identity, since variables refer to their scope. -/
namespace SlateVm.Compiler

abbrev ScopeId := Nat

structure Variable where
  name : String
  scope : ScopeId
  deriving DecidableEq

/-- The values of literals, as far as the compiler tells them apart. The integers are small. -/
inductive Literal where
  | nil
  | boolean (b : Bool)
  | integer (n : Int)
  | symbol (s : String)
  | character (c : Char)
  | object (o : Nat)
  deriving DecidableEq

inductive Node where
  | literal (value : Literal)
  | implicitArgument
  | load (var : Variable)
  | store (var : Variable) (value : Node)
  | message (selector : String) (arguments : List Node)
  | macro_ (selector : String) (arguments : List Node)
  | deferred (selector : String) (arguments : List Node)
  | optionalKeywords (message : Node) (keywords : List String) (arguments : List Node)
  | restArguments (message : Node) (arguments : List Node)
  | array (statements : List Node)
  | parenthesis (statements : List Node)
  | block (scope : ScopeId) (statements : List Node)
  | methodDefinition (scope : ScopeId) (selector : String) (roles statements : List Node)
  | returnClose (value : Node)
  | returnFar (value : Node)
  | returnLevel (level : Nat) (value : Node)
  | resend
  | annotated (value : Node)
  /-- A node for which nothing is generated. -/
  | other

namespace Node

/-- `isSameAs: nodes Block`, with the scope and the statements. -/
def asBlock : Node → Option (ScopeId × List Node)
  | block scope statements => some (scope, statements)
  | _ => none

def isArray : Node → Bool
  | array _ => true
  | _ => false

def statements : Node → Option (List Node)
  | array statements | parenthesis statements | block _ statements
  | methodDefinition _ _ _ statements => some statements
  | _ => none

def asMessage : Node → Option (String × List Node)
  | message selector arguments | macro_ selector arguments | deferred selector arguments =>
    some (selector, arguments)
  | _ => none

end Node

/-- The variables of a block. The inputs come first among the locals. -/
structure Scope where
  isMethodDefinition : Bool
  /-- `parentScope`, its `parentScope` and so on; the last one has the top level for parent. -/
  parentScopes : List ScopeId
  topLevel : Nat
  inputVariables : List Variable
  localVariables : List Variable
  restVariable : Option Variable
  optionalKeywords : List String
  inputsFirst : inputVariables <+: localVariables

namespace Scope

variable (scope : Scope)

def ofInputs (parentScopes : List ScopeId) (topLevel : Nat) (vars : List Variable) : Scope :=
  ⟨false, parentScopes, topLevel, vars, vars, none, [], List.prefix_rfl⟩

def indexOf (var : Variable) : Option Nat := scope.localVariables.idxOf? var

def addVariable (var : Variable) : Scope :=
  { scope with
    localVariables := scope.localVariables ++ [var]
    inputsFirst := scope.inputsFirst.trans (List.prefix_append ..) }

def dropInput (index : Nat) (var : Variable) : Scope :=
  { scope with
    inputVariables := scope.inputVariables.eraseIdx index
    localVariables := scope.localVariables.eraseIdx index ++ [var]
    inputsFirst := by
      obtain ⟨rest, shape⟩ := scope.inputsFirst
      rw [← shape]
      rcases Nat.lt_or_ge index scope.inputVariables.length with inside | beyond
      · rw [List.eraseIdx_append_of_lt_length inside, List.append_assoc]
        exact List.prefix_append ..
      · rw [List.eraseIdx_of_length_le beyond, List.eraseIdx_append_of_length_le beyond,
          List.append_assoc]
        exact List.prefix_append .. }

end Scope

end SlateVm.Compiler
