import FieldAccess.Body

/-! What can go wrong while a method body is evaluated. -/
namespace FieldAccess

inductive EvalError where
  /-- A key that matches no field. -/
  | unknownField (key : String)
  /-- A value of the wrong kind crossed a cast, a binding or a store. -/
  | conversion (expected found : String)
  | nullReceiver (method : String)
  | nullArgument (method : String)
  | noSuchMethod (owner method : String)
  | noSuchField (owner field : String)
  | missingAccessorType (owner : String)
  | notAMethod (id : NodeId)
  | notAClass (id : NodeId)
  | arityMismatch (method : String) (expected found : Nat)
  /-- The method is declared here and implemented elsewhere. -/
  | abstractMethod (method : String)
  | danglingHandle (handle : String)
  | notAnObject (found : String)
  | notASequence (found : String)
  | missingLocal (name : String)
  | callDepthExceeded (limit : Nat)
deriving DecidableEq, Repr

def EvalError.message : EvalError → String
  | unknownField key => "Unknown field: " ++ key
  | conversion expected found => "cannot convert " ++ found ++ " to " ++ expected
  | nullReceiver method => "cannot invoke '" ++ method ++ "' on a null receiver"
  | nullArgument method => "'" ++ method ++ "' was given a null argument"
  | noSuchMethod owner method => "class '" ++ owner ++ "' has no method '" ++ method ++ "'"
  | noSuchField owner field => "class '" ++ owner ++ "' has no field '" ++ field ++ "'"
  | missingAccessorType owner => "class '" ++ owner ++ "' has no nested accessor type"
  | notAMethod id => "node " ++ NodeId.label id ++ " is not a method"
  | notAClass id => "node " ++ NodeId.label id ++ " is not a class"
  | arityMismatch method expected found =>
    "method '" ++ method ++ "' expects " ++ Nat.repr expected ++ " argument(s), got " ++
      Nat.repr found
  | abstractMethod method => "method '" ++ method ++ "' has no body"
  | danglingHandle handle => "heap handle " ++ handle ++ " does not exist"
  | notAnObject found => "expected an object, found " ++ found
  | notASequence found => "expected a sequence, found " ++ found
  | missingLocal name => "local '" ++ name ++ "' is not bound"
  | callDepthExceeded limit => "call depth exceeded " ++ Nat.repr limit

end FieldAccess
