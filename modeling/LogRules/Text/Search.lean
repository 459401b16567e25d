/-!
Search for one text inside another.
-/
namespace LogRules.Text

def occursIn (sought : List Char) : List Char → Bool
  | [] => sought.isEmpty
  | c :: rest => sought.isPrefixOf (c :: rest) || occursIn sought rest

end LogRules.Text
