/-!
How a file is compiled.
-/
namespace ZigMarkup

structure Options where
  /-- The name that diagnostics give the file. -/
  filename : String := "input.zx"
  /-- The namespace through which generated code reaches its builders. -/
  runtime : String := "zigx"
  runtimeModule : String := "zigx"
  /-- The allocator where no `@allocator` is in force. -/
  defaultAllocator : String := "std.heap.page_allocator"
  indentWidth : Nat := 4
  /-- Whether to import the runtime where the file does not. -/
  injectImport : Bool := true
deriving DecidableEq, Repr

namespace Options

def withFilename (options : Options) (filename : String) : Options := { options with filename }

def boolText (b : Bool) : String := if b then "true" else "false"

/-- All options as one text. A zero byte ends each part, so among options whose strings hold none
the fingerprint tells any two apart. -/
def fingerprint (o : Options) : String :=
  "file=" ++ o.filename ++ "\x00runtime=" ++ o.runtime ++ "\x00module=" ++ o.runtimeModule ++
    "\x00alloc=" ++ o.defaultAllocator ++ "\x00indent=" ++ toString o.indentWidth ++
    "\x00import=" ++ boolText o.injectImport

end Options

end ZigMarkup
