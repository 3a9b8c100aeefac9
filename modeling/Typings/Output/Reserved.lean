/-!
# Reserved words

The words of TypeScript that can name neither a parameter nor a function.
-/

namespace Typings

def reservedWords : List String :=
  ["arguments", "break", "case", "catch", "class", "const", "continue", "debugger", "default",
    "delete", "do", "else", "enum", "eval", "export", "extends", "false", "finally", "for",
    "function", "if", "implements", "import", "in", "instanceof", "interface", "let", "new",
    "null", "package", "private", "protected", "public", "return", "static", "super", "switch",
    "this", "throw", "true", "try", "typeof", "var", "void", "while", "with", "yield"]

def isReserved (word : String) : Bool := reservedWords.contains word

end Typings
