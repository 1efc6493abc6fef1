/-!
# Quotes

Strings change their quotes to the preferred kind, unless the other kind occurs less often inside.
-/

namespace StoryDocs
namespace Layout

/-- The preferred quote and the other one. -/
def quotePair (preferSingle : Bool) : Char × Char :=
  if preferSingle then ('\x27', '\x22') else ('\x22', '\x27')

/-- The quote for a string with the given content. -/
def chosenQuote (content : List Char) (preferSingle : Bool) : Char :=
  let (preferred, other) := quotePair preferSingle
  if content.count preferred > content.count other then other else preferred

/-- Change the escapes of a content that stood between `old` quotes for `new` ones. -/
def requoteContent (old new : Char) : List Char → List Char
  | [] => []
  | ['\\'] => ['\\']
  | '\\' :: c :: s =>
    if c == old then c :: requoteContent old new s else '\\' :: c :: requoteContent old new s
  | c :: s =>
    if c == new then '\\' :: c :: requoteContent old new s else c :: requoteContent old new s

/-- A string of the given content, which stood between `old` quotes. -/
def requote (content : List Char) (old : Char) (preferSingle : Bool) : List Char :=
  let new := chosenQuote content preferSingle
  new :: (if new == old then content else requoteContent old new content) ++ [new]

end Layout
end StoryDocs
