import Lalr.Text.Identifier

/-! Names that may be given to symbols. They reappear as identifiers in generated code, so
reserved words are refused unless they are written raw, as in `r#loop`. -/
namespace Lalr.Text

def strictWords : List String :=
  ["as", "break", "const", "continue", "crate", "else", "enum", "extern", "false", "fn", "for",
    "if", "impl", "in", "let", "loop", "match", "mod", "move", "mut", "pub", "ref", "return",
    "self", "Self", "static", "struct", "super", "trait", "true", "type", "unsafe", "use",
    "where", "while", "async", "await", "dyn"]

def reservedWords : List String :=
  ["abstract", "become", "box", "do", "final", "macro", "override", "priv", "typeof", "unsized",
    "virtual", "yield", "try"]

/-- Words that have no raw form. -/
def unrawableWords : List String := ["crate", "self", "super", "Self"]

def isPlainIdentifier : List Char → Bool
  | [] => false
  | c :: rest => isNameStart c && rest.all isNameContinue

def isSymbolName (name : String) : Bool :=
  match name.toList with
  | 'r' :: '#' :: word => !unrawableWords.contains (String.ofList word) && isPlainIdentifier word
  | word => !strictWords.contains name && !reservedWords.contains name && isPlainIdentifier word

end Lalr.Text
