import ZigMarkup.Flow

/-!
Generated code: the part of Zig that templates are turned into. Values are made by calls on
the builder of the innermost block. Control flow is made of statements; where a value is
needed it stands in a labeled block that breaks with the value.
-/
namespace ZigMarkup.Code

/-- The builder of the innermost block; there is none outside all blocks. -/
structure Builder where
  block : Option Nat
deriving DecidableEq, Repr

inductive BlockLabel where
  | block (id : Nat)
  | named (name : String)
deriving DecidableEq, Repr

inductive ListVar where
  | fresh (id : Nat)
  | named (name : String)
deriving DecidableEq, Repr

/-- Where a statement delivers a value: out of a block, or into a list. -/
inductive Sink where
  | breakTo (label : BlockLabel)
  | appendTo (list : ListVar)
deriving DecidableEq, Repr

/-- What an element is made with, apart from attributes and children. -/
structure Head where
  builder : Builder
  tag : String
  allocator : Option String
  raw : Bool
  merged : Bool
deriving DecidableEq, Repr

mutual
inductive Expr where
  | element (head : Head) (attributes : List Attr) (children : List Expr)
  | selfClosing (head : Head) (attributes : List Attr)
  | component (builder : Builder) (name : String) (options : List (String × String))
      (props : List PropGroup)
  | fragment (builder : Builder) (children : List Expr)
  /-- A fragment of what a list holds. -/
  | collected (builder : Builder) (list : ListVar)
  | empty (builder : Builder)
  | value (builder : Builder) (raw : Bool) (code : String)
  | text (builder : Builder) (raw : Bool) (content : String)
  | block (id : Nat) (allocator : String) (body : List Stmt)

inductive Attr where
  | pair (builder : Builder) (name : String) (value : Value)
  | format (builder : Builder) (name format : String) (args : List String)
  | spread (builder : Builder) (code : String)

inductive Value where
  | code (text : String)
  | expr (expr : Expr)

inductive PropGroup where
  | record (props : List PropEntry)
  | spread (code : String)

inductive PropEntry where
  | field (name : String) (value : Value)
  | format (builder : Builder) (name format : String) (args : List String)
  | children (nodes : List Expr)

inductive Stmt where
  | deliver (sink : Sink) (value : Expr)
  | declare (list : ListVar) (builder : Builder)
  | ifChain (arms : List Arm)
  | loop (keyword head : String) (body : List Stmt)
  | switch (subject : String) (arms : List Arm)
  | blank

structure Arm where
  head : Option String
  capture : Option String
  body : List Stmt
end

end ZigMarkup.Code
