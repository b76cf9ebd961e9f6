import Pubstorm.Go.Path
import Pubstorm.Go.Clean
import Pubstorm.Go.Json
import Pubstorm.Go.Base64
import Pubstorm.Go.Pem
import Pubstorm.Acmecert
import Pubstorm.Records
import Pubstorm.User
import Pubstorm.World
import Pubstorm.Deployer.Layout
import Pubstorm.Deployer.Work
import Pubstorm.Deployer.Steps
import Pubstorm.Deployer.Run
import Pubstorm.Deployer.Success
import Pubstorm.Deployer.Redelivery
import Pubstorm.Deployer.Legacy
import Pubstorm.Deployments.Create
import Pubstorm.System.Basic
import Pubstorm.System.Active
import Pubstorm.System.Pointers
import Pubstorm.System.Webroot
import Pubstorm.System.Handoff
import Pubstorm.Testhelper
