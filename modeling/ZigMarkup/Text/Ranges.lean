/-!
Sets of characters, as tables of code point ranges.
-/
namespace ZigMarkup

/-- First and last code points of ranges, in ascending order. -/
abbrev Ranges := List (Nat × Nat)

/-- Whether a range holds the code point; the search ends at the first range behind it. -/
def Ranges.holds : Ranges → Nat → Bool
  | [], _ => false
  | (first, last) :: ranges, n => first ≤ n && (n ≤ last || Ranges.holds ranges n)

end ZigMarkup
