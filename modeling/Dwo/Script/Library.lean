/-!
# Libraries

A library is a set of names and the JavaScript that provides them. There is one, `coreIo`: it
collects what a program prints and hands it to the console line by line, whenever a newline is
written or the program asks for it.
-/

namespace Dwo

/-- Names that an import brings in, and the JavaScript that provides them, line by line. -/
structure Library where
  name : String
  constants : List String
  functions : List String
  runtime : List String
deriving DecidableEq, Inhabited, Repr

/-- Buffered printing. -/
def coreIo : Library where
  name := "core:io"
  constants := ["stdin", "stdout", "stderr", "stdwarn"]
  functions := ["print", "println", "putchar", "flush"]
  runtime := [
    "(function () \x7b",
    "  const decoder = new TextDecoder();",
    "  const buffers = [null, '', '', ''];",
    "  const stdin = 0, stdout = 1, stderr = 2, stdwarn = 3;",
    "  globalThis.stdin = stdin; globalThis.stdout = stdout; globalThis.stderr = stderr; globalThis.stdwarn = stdwarn;",
    "  const write = (text) => \x7b",
    "    const lines = `$\x7btext\x7d`.split('\\n');",
    "    const last = lines.pop();",
    "    for (const line of lines) \x7b",
    "      console.log(buffers[stdout] + line);",
    "      buffers[stdout] = '';",
    "    \x7d",
    "    buffers[stdout] += last;",
    "  \x7d;",
    "  const print = (...args) => \x7b for (const arg of args) write(arg); \x7d;",
    "  const println = (...args) => \x7b",
    "    print(...args);",
    "    console.log(buffers[stdout]);",
    "    buffers[stdout] = '';",
    "  \x7d;",
    "  const putchar = (...codes) => \x7b write(decoder.decode(new Uint8Array(codes))); \x7d;",
    "  const flush = () => \x7b",
    "    if (buffers[stdout]) console.log(buffers[stdout]);",
    "    buffers[stdout] = '';",
    "  \x7d;",
    "  globalThis.print = print; globalThis.println = println; globalThis.putchar = putchar; globalThis.flush = flush;",
    "\x7d)();"]

/-- The JavaScript of a library. -/
def Library.text (l : Library) : String :=
  "\n".intercalate l.runtime

end Dwo
