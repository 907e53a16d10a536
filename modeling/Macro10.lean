import Macro10.Main
import Macro10.Proofs.Announcements
import Macro10.Proofs.Brackets.Clean
import Macro10.Proofs.CommandLine.Precedence
import Macro10.Proofs.CommandLine.Run
import Macro10.Proofs.Commas
import Macro10.Proofs.Comments
import Macro10.Proofs.Definitions
import Macro10.Proofs.Idempotence
import Macro10.Proofs.KeptLines
import Macro10.Proofs.Lossless
import Macro10.Proofs.Messages
import Macro10.Proofs.Numeral.Exact
import Macro10.Proofs.Numeral.InPlace
import Macro10.Proofs.PlainText
import Macro10.Proofs.Queries
import Macro10.Proofs.Stages
import Macro10.Proofs.Uniform
