/-
**Words with a fixed meaning** in q.

Main definitions:

* `QSource.reservedWords`, `QSource.isReserved` — the words that cannot be names;
* `QSource.systemNamespaces`, `QSource.inSystemNamespace` — the names that belong to the runtime;
* `QSource.queryWords` — the words that open a query.
-/

set_option relaxedAutoImplicit false
set_option autoImplicit false

namespace QSource

/-- The built-in words, in alphabetical order. -/
def reservedWords : List String := [
  "abs", "acos", "aj", "aj0", "ajf", "ajf0", "all", "and", "any", "asc", "asin", "asof", "atan",
  "attr", "avg", "avgs", "bin", "binr", "by", "ceiling", "cols", "cor", "cos", "count", "cov",
  "cross", "csv", "cut", "delete", "deltas", "desc", "dev", "differ", "distinct", "div", "do",
  "dsave", "each", "ej", "ema", "enlist", "eval", "except", "exec", "exit", "exp", "fby", "fills",
  "first", "fkeys", "flip", "floor", "from", "get", "getenv", "group", "gtime", "hclose", "hcount",
  "hdel", "hopen", "hsym", "iasc", "idesc", "if", "ij", "ijf", "in", "insert", "inter", "inv",
  "key", "keys", "last", "like", "lj", "ljf", "load", "log", "lower", "lsq", "ltime", "ltrim",
  "mavg", "max", "maxs", "mcount", "md5", "mdev", "med", "meta", "min", "mins", "mmax", "mmin",
  "mmu", "mod", "msum", "neg", "next", "not", "null", "or", "over", "parse", "peach", "pj", "prd",
  "prds", "prev", "prior", "rand", "rank", "ratios", "raze", "read0", "read1", "reciprocal",
  "reval", "reverse", "rload", "rotate", "rsave", "rtrim", "save", "scan", "scov", "sdev", "select",
  "set", "setenv", "show", "signum", "sin", "sqrt", "ss", "ssr", "string", "sublist", "sum", "sums",
  "sv", "svar", "system", "tables", "tan", "til", "trim", "type", "uj", "ujf", "ungroup", "union",
  "update", "upper", "upsert", "value", "var", "view", "views", "vs", "wavg", "where", "while",
  "within", "wj", "wj1", "wsum", "xasc", "xbar", "xcol", "xcols", "xdesc", "xexp", "xgroup", "xkey",
  "xlog", "xprev", "xrank"]

/-- Whether a word is built in. -/
def isReserved (word : String) : Bool := reservedWords.contains word

/-- The namespaces that the runtime owns. -/
def systemNamespaces : List String := [".q.", ".Q.", ".h.", ".j.", ".o.", ".z."]

/-- Whether a name lies in a namespace of the runtime. -/
def inSystemNamespace (name : String) : Bool :=
  systemNamespaces.any fun space => space.toList.isPrefixOf name.toList

/-- The words that open a query, in which assignments name the columns of its result. -/
def queryWords : List String := ["select", "exec", "update", "delete"]

/-- The word that closes the part of a query in which columns are named. -/
def sourceWord : String := "from"

end QSource
