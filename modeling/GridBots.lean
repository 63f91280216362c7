import GridBots.Assembly
import GridBots.World
import GridBots.Proofs.Headers
import GridBots.Proofs.Reading
import GridBots.Proofs.Lines
import GridBots.Proofs.Stages
import GridBots.Proofs.Faults
import GridBots.Proofs.Addresses
import GridBots.Proofs.Decoding
import GridBots.Proofs.Steps
import GridBots.Proofs.ControlFlow
import GridBots.Proofs.Structured
import GridBots.Proofs.Simulation
import GridBots.Proofs.Operands
import GridBots.Proofs.Targets
import GridBots.Proofs.Literals
import GridBots.Proofs.Grammar
import GridBots.Proofs.Data
import GridBots.Proofs.LineTable
import GridBots.Proofs.Directives
import GridBots.Proofs.Resemblance
import GridBots.Proofs.Spelling
import GridBots.Proofs.Definitions
import GridBots.Proofs.Bodies
import GridBots.Proofs.Language
import GridBots.Proofs.Failures
import GridBots.Proofs.Turns
import GridBots.Proofs.Histories
import GridBots.Proofs.Independence
import GridBots.Proofs.Reports
import GridBots.Proofs.Renaming
import GridBots.Proofs.Loading
import GridBots.Proofs.Writes
import GridBots.Proofs.Capacities
import GridBots.Proofs.Transfers
import GridBots.Proofs.Lookups
import GridBots.Proofs.Tiling
import GridBots.Proofs.Braces
import GridBots.Proofs.Packing
