namespace Sprout.Target

/-- Words that a variable of the generated text may not be called. -/
def reserved : List String :=
  ["alignas", "alignof", "and", "and_eq", "asm", "auto", "bitand", "bitor", "bool", "case",
    "catch", "char", "char8_t", "char16_t", "char32_t", "class", "compl", "concept", "const_cast",
    "consteval", "constexpr", "constinit", "co_await", "co_return", "co_yield", "decltype",
    "default", "delete", "do", "double", "dynamic_cast", "enum", "explicit", "export", "extern",
    "false", "float", "friend", "goto", "inline", "int", "long", "mutable", "namespace", "new",
    "noexcept", "not", "not_eq", "nullptr", "operator", "or", "or_eq", "private", "protected",
    "public", "register", "reinterpret_cast", "requires", "short", "signed", "sizeof", "static",
    "static_assert", "static_cast", "struct", "switch", "template", "this", "thread_local",
    "throw", "true", "try", "typedef", "typeid", "typename", "union", "unsigned", "using",
    "virtual", "void", "volatile", "wchar_t", "xor", "xor_eq", "int8_t", "int16_t", "int32_t",
    "int64_t", "uint8_t", "uint16_t", "uint32_t", "uint64_t", "size_t", "argc", "argv", "std",
    "rt", "NULL"]

/-- The name that a Sprout name has in the generated text. Words that the generated program uses
itself, and all names that start with an underscore, get `_u` in front, which leaves `_t` free for
temporaries. -/
def name (text : String) : String :=
  if text.toList.head? = some '_' || text ∈ reserved then "_u" ++ text else text

/-- The temporary that holds the result of a call with several values. -/
def temporary : String := "_t0"

end Sprout.Target
