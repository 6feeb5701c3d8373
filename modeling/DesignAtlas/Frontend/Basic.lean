import DesignAtlas.Frontend.Checker
import DesignAtlas.Frontend.Concrete
import DesignAtlas.Module.Vocabulary

/-!
# Front-ends

There are two ways to parse source files: the syntax checker, which is a program that is
run over all of them at once, and a parser that hands over the concrete tree of one file
at a time. Both give parsed files under their paths, and each has its own vocabulary of
tags.
-/

namespace DesignAtlas

/-- A front-end. -/
inductive Frontend where
  /-- The syntax checker, with what running it gives. -/
  | checker (c : Checker) (run : ToolRun)
  /-- The parser that hands over concrete trees, if it is there. -/
  | concrete (parser? : Option ConcreteParser) (nulls : NullPolicy)

namespace Frontend

/-- The tags of its trees. -/
def vocabulary : Frontend → Vocabulary
  | checker .. => .verible
  | concrete .. => .slang

/-- The programs that are run to parse files. -/
def calls : Frontend → List String → List ToolCall
  | checker c _, paths => [c.call paths none]
  | concrete .., _ => []

/-- **The result of parsing files.** -/
def parseFiles (disk : Disk) : Frontend → List String → Logged (Except Failure ParsedFiles)
  | checker c run, paths => c.parse disk run paths none
  | concrete parser? nulls, paths => ConcreteParser.parseFiles parser? nulls disk paths

end Frontend

end DesignAtlas
