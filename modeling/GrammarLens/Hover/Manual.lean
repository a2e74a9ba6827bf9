/-! # Manual pages

What a hover shows for words of the grammar language itself: the functions of its standard library,
its reserved tokens and its directives. -/

namespace GrammarLens

/-- The pages on functions of the standard library and on reserved tokens. -/
def namePages : List (String × String) := [
  ("option",
    "**Built-in Function**: `option(X)`\n\n" ++
      "Makes X optional (zero or one occurrences).\n\n**Example**:\n```yacc\n" ++
      "rule: option(expr)\n// Expands to:\n// rule: /* empty */ | expr\n```"),
  ("ioption",
    "**Built-in Function**: `ioption(X)`\n\n" ++
      "Inline option - expands directly without creating intermediate rule.\n\n" ++
      "**Example**:\n```yacc\nrule: ioption(expr) stmt\n// Expands inline to:\n" ++
      "// rule: stmt | expr stmt\n```"),
  ("list",
    "**Built-in Function**: `list(X)`\n\nZero or more occurrences of X.\n\n" ++
      "**Example**:\n```yacc\nrule: list(stmt)\n// Expands to:\n" ++
      "// rule: /* empty */ | rule stmt\n```"),
  ("nonempty_list",
    "**Built-in Function**: `nonempty_list(X)`\n\nOne or more occurrences of X.\n\n" ++
      "**Example**:\n```yacc\nrule: nonempty_list(stmt)\n// Expands to:\n" ++
      "// rule: stmt | rule stmt\n```"),
  ("separated_list",
    "**Built-in Function**: `separated_list(SEP, X)`\n\n" ++
      "Zero or more X separated by SEP.\n\n**Example**:\n```yacc\n" ++
      "rule: separated_list(',', expr)\n" ++
      "// Matches: /* empty */ | expr | expr ',' expr ',' expr ...\n```"),
  ("separated_nonempty_list",
    "**Built-in Function**: `separated_nonempty_list(SEP, X)`\n\n" ++
      "One or more X separated by SEP.\n\n**Example**:\n```yacc\n" ++
      "rule: separated_nonempty_list(',', expr)\n" ++
      "// Matches: expr | expr ',' expr | expr ',' expr ',' expr ...\n```"),
  ("preceded",
    "**Built-in Function**: `preceded(A, X)`\n\n" ++
      "Matches A followed by X, returns only X.\n\n**Example**:\n```yacc\n" ++
      "rule: preceded('(', expr)\n// Matches: '(' expr\n```"),
  ("terminated",
    "**Built-in Function**: `terminated(X, A)`\n\n" ++
      "Matches X followed by A, returns only X.\n\n**Example**:\n```yacc\n" ++
      "rule: terminated(expr, ';')\n// Matches: expr ';'\n```"),
  ("delimited",
    "**Built-in Function**: `delimited(OPEN, X, CLOSE)`\n\n" ++
      "Matches OPEN X CLOSE, returns only X.\n\n**Example**:\n```yacc\n" ++
      "rule: delimited('(', expr, ')')\n// Matches: '(' expr ')'\n```"),
  ("error",
    "**Reserved Token**: `error`\n\nSpecial token for error recovery.\n\n**Usage**:\n" ++
      "```yacc\nstmt: expr ';'\n    | error ';' \x7b yyerrok; \x7d\n    ;\n```\n\n" ++
      "When a syntax error occurs, the parser can recover by matching the `error` token."),
  ("YYEOF",
    "**Reserved Token**: `YYEOF`\n\n" ++
      "End-of-file token. Automatically added to the end of the input."),
  ("YYUNDEF",
    "**Reserved Token**: `YYUNDEF`\n\n" ++
      "Undefined token. Used for tokens that don't match any defined pattern.")]

/-- The pages on directives. -/
def directivePages : List (String × String) := [
  ("%token",
    "**Directive**: `%token`\n\nDeclares terminal symbols (tokens).\n\n**Syntax**:\n" ++
      "```yacc\n%token TOKEN_NAME\n%token <type> TYPED_TOKEN\n" ++
      "%token TOKEN1 TOKEN2 TOKEN3\n```"),
  ("%type",
    "**Directive**: `%type`\n\nDeclares the type of nonterminals.\n\n**Syntax**:\n" ++
      "```yacc\n%type <type> nonterminal1 nonterminal2\n```"),
  ("%nterm",
    "**Directive**: `%nterm`\n\nDeclares nonterminal symbols with optional type.\n\n" ++
      "**Syntax**:\n```yacc\n%nterm <type> nonterminal\n```"),
  ("%start",
    "**Directive**: `%start`\n\nSpecifies the start symbol of the grammar.\n\n" ++
      "**Syntax**:\n```yacc\n%start program\n```"),
  ("%union",
    "**Directive**: `%union`\n\nDefines the union type for semantic values.\n\n" ++
      "**Syntax**:\n```yacc\n%union \x7b\n    int ival;\n    double dval;\n" ++
      "    char *sval;\n\x7d\n```"),
  ("%left",
    "**Directive**: `%left`\n\nDeclares left-associative operators.\n\n**Syntax**:\n" ++
      "```yacc\n%left '+' '-'\n%left '*' '/'\n```\n\n" ++
      "Later declarations have higher precedence."),
  ("%right",
    "**Directive**: `%right`\n\nDeclares right-associative operators.\n\n" ++
      "**Syntax**:\n```yacc\n%right '^'\n%right '='\n```"),
  ("%nonassoc",
    "**Directive**: `%nonassoc`\n\nDeclares non-associative operators.\n\n" ++
      "**Syntax**:\n```yacc\n%nonassoc '<' '>' LEQ GEQ\n```\n\n" ++
      "These operators cannot be chained."),
  ("%precedence",
    "**Directive**: `%precedence`\n\nDeclares precedence without associativity.\n\n" ++
      "**Syntax**:\n```yacc\n%precedence NEG\n```"),
  ("%prec",
    "**Directive**: `%prec`\n\nOverrides precedence for a specific rule.\n\n" ++
      "**Syntax**:\n```yacc\nexpr: '-' expr %prec NEG\n```"),
  ("%rule",
    "**Directive**: `%rule` *(Lrama extension)*\n\nDefines a parameterized rule.\n\n" ++
      "**Syntax**:\n```yacc\n%rule list(X): /* empty */\n            | list(X) X\n" ++
      "            ;\n```"),
  ("%inline",
    "**Directive**: `%inline` *(Lrama extension)*\n\n" ++
      "Inlines a rule at its usage points.\n\n**Syntax**:\n```yacc\n" ++
      "%rule %inline op: '+' | '-' ;\n```"),
  ("%empty",
    "**Directive**: `%empty`\n\nExplicitly marks an empty rule.\n\n**Syntax**:\n" ++
      "```yacc\noptional: %empty\n        | value\n        ;\n```"),
  ("%destructor",
    "**Directive**: `%destructor`\n\nDefines cleanup code for semantic values.\n\n" ++
      "**Syntax**:\n```yacc\n%destructor \x7b free($$); \x7d <string>\n```"),
  ("%printer",
    "**Directive**: `%printer`\n\nDefines debug printing for semantic values.\n\n" ++
      "**Syntax**:\n```yacc\n%printer \x7b fprintf(yyoutput, \"%d\", $$); \x7d <int>\n" ++
      "```"),
  ("%define",
    "**Directive**: `%define`\n\nSets parser configuration variables.\n\n" ++
      "**Common uses**:\n```yacc\n%define lr.type ielr\n%define api.pure full\n```"),
  ("%locations",
    "**Directive**: `%locations`\n\n" ++
      "Enables location tracking for better error messages."),
  ("%no-stdlib",
    "**Directive**: `%no-stdlib` *(Lrama extension)*\n\n" ++
      "Disables Lrama standard library (parameterized rules)."),
  ("%debug",
    "**Directive**: `%debug`\n\nEnables debug output in the generated parser."),
  ("%error-verbose",
    "**Directive**: `%error-verbose`\n\nGenerates more detailed error messages.")]

/-- The page on a word. -/
def manualPage? (word : String) : Option String := (namePages ++ directivePages).lookup word

end GrammarLens
