import Std.Data.HashMap
import ZigMarkup.Compile

/-!
A cache of compiled files. The key of a file is the fingerprint of its options and its source as
bytes; the byte between them occurs in no UTF-8 text, so the key determines both parts. Failures
are kept as well. A full cache drops all entries before it takes a new one.
-/
namespace ZigMarkup

/-- A result, and the number of the computation that gave it. -/
structure Cached where
  serial : Nat
  result : Checked Compiled

structure Cache where
  capacity : Nat
  entries : Std.HashMap Bytes Cached := {}
  computed : Nat := 0

namespace Cache

def defaultCapacity : Nat := 1024

/-- A cache has room for one entry at least. -/
def ofCapacity (capacity : Nat) : Cache := { capacity := max capacity 1 }

def key (options : Options) (source : String) : Bytes :=
  utf8 options.fingerprint ++ [0xFF] ++ utf8 source

def size (cache : Cache) : Nat := cache.entries.size

def isEmpty (cache : Cache) : Bool := cache.entries.isEmpty

def clear (cache : Cache) : Cache := { cache with entries := {} }

def find? (cache : Cache) (key : Bytes) : Option Cached := cache.entries[key]?

/-- An entry that is present stays; a new one finds room or drops all others. -/
def insert (cache : Cache) (key : Bytes) (entry : Cached) : Cache :=
  if cache.entries.contains key then cache
  else
    let roomy := if cache.capacity ≤ cache.size then cache.clear else cache
    { roomy with entries := roomy.entries.insert key entry }

/-- Compiles a file unless its result is known. -/
def compile (cache : Cache) (options : Options) (source : String) : Cached × Cache :=
  let key := key options source
  match cache.find? key with
  | some entry => (entry, cache)
  | none =>
    let entry : Cached := ⟨cache.computed, ZigMarkup.compile options source⟩
    (entry, { cache with computed := cache.computed + 1 }.insert key entry)

end Cache

end ZigMarkup
