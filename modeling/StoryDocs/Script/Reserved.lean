/-!
# Reserved words

The words that modules do not let a value be called.
-/

namespace StoryDocs
namespace Script

/-- Words that never name a value. -/
def hardReserved : List String :=
  ["break", "case", "catch", "class", "const", "continue", "debugger", "default", "delete", "do",
    "else", "enum", "export", "extends", "false", "finally", "for", "function", "if", "import", "in",
    "instanceof", "new", "null", "return", "super", "switch", "this", "throw", "true", "try",
    "typeof", "var", "void", "while", "with", "await"]

/-- Words that strict code, and so every module, reserves besides. -/
def strictReserved : List String :=
  ["implements", "interface", "let", "package", "private", "protected", "public", "static", "yield"]

/-- Whether a word is reserved in modules. -/
def isReserved (name : String) : Bool :=
  hardReserved.contains name || strictReserved.contains name

end Script
end StoryDocs
