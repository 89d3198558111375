/-! # The environment — variables around the program

    A variable has a name and perhaps a value. -/

namespace CodeGraph

/-- The values of variables by name. -/
abbrev Environment := String → Option String

end CodeGraph
