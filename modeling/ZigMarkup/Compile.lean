import ZigMarkup.Code.OfTemplate
import ZigMarkup.Code.Printer
import ZigMarkup.Options
import ZigMarkup.Syntax.Parser
import ZigMarkup.Template.OfTree
import ZigMarkup.Template.Resolve

/-!
Compiling a file: its templates become blocks of Zig in place, and all other text is kept.
A file without templates is not changed at all.
-/
namespace ZigMarkup

structure Compiled where
  code : String
  templates : Nat
  blocks : Nat
deriving DecidableEq, Repr

def importVisit (needle : Bytes) (_ : Unit) (_ : Nat) (b : UInt8) (rest : Bytes) : Move Unit Bool :=
  match lexeme b rest with
  | .trivia length => .go length ()
  | .broken length => .go (length + 1) ()
  | .plain => if needle.isPrefixOf (b :: rest) then .stop true else .go 1 ()

/-- Whether a piece of host code declares the runtime, outside comments and strings. -/
def importsRuntime (runtime : String) (text : Bytes) : Bool :=
  walk (importVisit (utf8 ("const " ++ runtime ++ " = @import("))) (fun _ _ => false) () text

def hasImport (options : Options) (source : Bytes) (file : Tree) : Bool :=
  (file.childrenOf .hostText).any fun t => importsRuntime options.runtime (t.span.slice source)

def importLine (options : Options) : String :=
  "const " ++ options.runtime ++ " = @import(" ++ Literal.quoted options.runtimeModule ++ ");\n"

/-- The text of the import to add in front, if one is to be added. -/
def addedImport (options : Options) (source : Bytes) (file : Tree) : String :=
  if options.injectImport && !hasImport options source file then importLine options else ""

def emitTemplate (options : Options) (base : String) (template : Template) : Code.EmitM String := do
  return layout base options.indentWidth ((← Code.ofTemplate template).pieces options.runtime)

/-- The parts of a file with each template root replaced by the code for it. -/
def replaceRoots (options : Options) (source : Bytes) (lines : LineIndex) :
    List Template → List Tree → Code.EmitM String
  | _, [] => return ""
  | templates, part :: parts => do
    if part.kind = .templateRoot then
      match templates with
      | [] => replaceRoots options source lines [] parts
      | template :: templates =>
        let code ← emitTemplate options (lines.indentAt source template.span.start) template
        return code ++ (← replaceRoots options source lines templates parts)
    else return part.text source ++ (← replaceRoots options source lines templates parts)

def generate (options : Options) (source : Bytes) (file : Tree) : Checked Compiled := do
  let templates ← templatesOf source file
  if templates.isEmpty then return ⟨decode source, 0, 0⟩
  else
    let resolved := templates.map (Template.resolve options.defaultAllocator)
    let (code, counter) :=
      (replaceRoots options source (LineIndex.ofBytes source) resolved file.children).run {}
    return ⟨addedImport options source file ++ code, templates.length, counter.blocks⟩

/-- Compiles a file; a failure says where in the file it lies. -/
def compile (options : Options) (source : String) : Checked Compiled :=
  let source := utf8 source
  match generate options source (parse source) with
  | .ok compiled => .ok compiled
  | .error diagnostic => .error (diagnostic.locate options.filename source)

structure SourceFile where
  filename : String
  source : String
deriving DecidableEq, Repr

/-- Compiles many files, each under its own name. -/
def compileAll (options : Options) (files : List SourceFile) : List (Checked Compiled) :=
  files.map fun file => compile (options.withFilename file.filename) file.source

end ZigMarkup
