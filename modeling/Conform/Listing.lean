set_option autoImplicit false

namespace Conform.Listing

/-- A listing with a comma after each item but the last. -/
def series : List String → String
  | [] => ""
  | [a] => a
  | [a, b] => a ++ ", or " ++ b
  | a :: rest => a ++ ", " ++ series rest

def alternatives : List String → String
  | [a, b] => a ++ " or " ++ b
  | items => series items

end Conform.Listing
