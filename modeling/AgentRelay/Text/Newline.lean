/-
  Line endings of a text that is read from a file: a carriage return, alone or
  before a line feed, is read as one line feed. Writing changes nothing.
-/

namespace AgentRelay.Text

def unifyNewlines : List Char → List Char
  | [] => []
  | '\r' :: '\n' :: cs => '\n' :: unifyNewlines cs
  | c :: cs => (if c = '\r' then '\n' else c) :: unifyNewlines cs

end AgentRelay.Text
