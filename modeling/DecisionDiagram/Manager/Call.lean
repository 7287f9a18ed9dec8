import DecisionDiagram.Manager.Quantify
import DecisionDiagram.Manager.Replace
import DecisionDiagram.Manager.Translate
import DecisionDiagram.Manager.WeightedSum

/-!
# Calls as data

Everything that a manager can be asked to do and that may change it, so that a history of a
manager is a list of calls. Negating an edge and the questions of `Model` and `Inspect` need no
call: they change nothing.
-/

set_option autoImplicit false

namespace DecisionDiagram

inductive Call where
  | node (var : Nat) (low high : Edge)
  | literal (number : Int)
  | cube (literals : List Int)
  | clause (literals : List Int)
  | clauses (literalLists : List (List Int))
  | apply (connective : Connective) (first second : Edge)
  | iff (first second : Edge)
  | imp (first second : Edge)
  | ite (condition whenTrue whenFalse : Edge)
  | andAll (edges : List Edge)
  | orAll (edges : List Edge)
  | andSmallestFirst (edges : List Edge)
  | compose (edge : Edge) (var : Nat) (replacement : Edge)
  | substitute (edge : Edge) (var : Nat) (replacement : Edge)
  | restrict (edge : Edge) (var : Nat) (value : Bool)
  | restrictMany (edge : Edge) (values : Std.HashMap Nat Bool)
  | existsVars (edge : Edge) (vars : List Nat)
  | forallVars (edge : Edge) (vars : List Nat)
  | relProduct (first second : Edge) (vars : List Nat)
  | weightedSum (comparison : Comparison) (weights literals : List Int) (bound : Int)
  | translate (circuit : Circuit) (threshold : Option Nat)
  | size (edge : Edge)
  | pin (edge : Edge)
  | unpin (edge : Edge)
  | collect (edges : List Edge)

/-- What a call yields. -/
inductive Answer where
  | done
  | edges (edges : List Edge)
  | count (count : Nat)
  | flag (flag : Bool)
  | translation (translation : Translation)

namespace Call

def perform : Call → Manager.Action Answer
  | node var low high => return .edges [← Manager.node var low high]
  | literal number => return .edges [← Manager.literal number]
  | cube literals => return .edges [← Manager.cube literals]
  | clause literals => return .edges [← Manager.clause literals]
  | clauses literalLists => return .edges (← Manager.clauses literalLists)
  | apply connective first second => return .edges [← Manager.apply connective first second]
  | iff first second => return .edges [← Manager.iff first second]
  | imp first second => return .edges [← Manager.imp first second]
  | ite condition whenTrue whenFalse =>
    return .edges [← Manager.ite condition whenTrue whenFalse]
  | andAll edges => return .edges [← Manager.andAll edges]
  | orAll edges => return .edges [← Manager.orAll edges]
  | andSmallestFirst edges => return .edges [← Manager.andSmallestFirst edges]
  | compose edge var replacement => return .edges [← Manager.compose edge var replacement]
  | substitute edge var replacement => return .edges [← Manager.substitute edge var replacement]
  | restrict edge var value => return .edges [← Manager.restrict edge var value]
  | restrictMany edge values => return .edges [← Manager.restrictMany edge values]
  | existsVars edge vars => return .edges [← Manager.existsVars edge vars]
  | forallVars edge vars => return .edges [← Manager.forallVars edge vars]
  | relProduct first second vars => return .edges [← Manager.relProduct first second vars]
  | weightedSum comparison weights literals bound =>
    return .edges [← Manager.weightedSum comparison weights literals bound]
  | translate circuit threshold => return .translation (← Manager.translate circuit threshold)
  | size edge => return .count (← Manager.size edge)
  | pin edge => do
    Manager.pin edge
    return .done
  | unpin edge => return .flag (← Manager.unpin edge)
  | collect edges => do
    Manager.collect edges
    return .done

end Call

end DecisionDiagram
