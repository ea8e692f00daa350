import Tricore.Register

/-!
# Contexts

A context is one half of the general purpose registers together with the link to the context
before it, saved as sixteen words in a fixed order.
-/

namespace Tricore

inductive ContextKind where
  | upper
  | lower
  deriving DecidableEq, Repr, Inhabited

namespace ContextKind

def name : ContextKind → String
  | upper => "Upper"
  | lower => "Lower"

def ofName? : String → Option ContextKind
  | "Upper" => some upper
  | "Lower" => some lower
  | _ => none

/-- The registers of a context in the order of their words. -/
def layout : ContextKind → Vector Register 16
  | upper =>
    #v[.pcxi, .psw, .a 10, .a 11, .d 8, .d 9, .d 10, .d 11,
      .a 12, .a 13, .a 14, .a 15, .d 12, .d 13, .d 14, .d 15]
  | lower =>
    #v[.pcxi, .a 11, .a 2, .a 3, .d 0, .d 1, .d 2, .d 3,
      .a 4, .a 5, .a 6, .a 7, .d 4, .d 5, .d 6, .d 7]

end ContextKind

/-- A saved context. -/
structure Frame where
  kind : ContextKind
  words : Vector Word 16
  deriving DecidableEq, Repr

end Tricore
