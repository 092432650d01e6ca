namespace Arbiter

/-- How a record is shown for debugging: its name, then its fields in braces. -/
def debugStruct (name : String) : List (String × String) → String
  | [] => name
  | fields =>
    name ++ r" { " ++ ", ".intercalate (fields.map fun (field, value) => field ++ ": " ++ value) ++
      r" }"

end Arbiter
