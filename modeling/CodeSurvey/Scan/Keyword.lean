/-!
# Words that name nothing

Keywords of the known languages, which are never reported as identifiers.
-/
namespace CodeSurvey.Scan

/-- Words that are never identifiers. -/
def keywords : List String := [
  "abstract", "and", "as", "async", "await", "begin", "bool", "boolean", "break", "byte",
  "case", "catch", "char", "class", "const", "continue", "def", "default", "defer", "del",
  "delete", "do", "double", "elif", "else", "elsif", "end", "ensure", "enum", "except",
  "export", "extends", "extern", "false", "final", "finally", "float", "fn", "for",
  "foreach", "from", "fun", "func", "function", "go", "goto", "if", "impl", "implements",
  "import", "in", "include", "instanceof", "int", "interface", "is", "lambda", "let",
  "long", "loop", "match", "mod", "module", "namespace", "new", "nil", "none", "None",
  "not", "null", "object", "or", "override", "package", "pass", "private", "protected",
  "pub", "public", "raise", "require", "require_relative", "rescue", "return", "self",
  "short", "sizeof", "static", "string", "struct", "super", "switch", "this", "throw",
  "throws", "trait", "true", "True", "False", "try", "type", "typedef", "typeof", "union",
  "unless", "unsigned", "until", "use", "using", "val", "var", "void", "when", "where",
  "while", "with", "yield"]

/-- Words in front of a parenthesis that are not the name of a function (`is_control_word`). -/
def controlWords : List String :=
  ["if", "else", "for", "while", "switch", "return", "catch", "do", "case", "when", "sizeof", "new",
    "throw"]

end CodeSurvey.Scan
